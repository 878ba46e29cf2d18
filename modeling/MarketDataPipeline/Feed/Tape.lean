/-
# MarketDataPipeline.Feed.Tape — what reaches the trade tape.

The two threads of `Feed.Threads` with a feed thread that handles delivered frames one by one.  Events
are counted from both ends: those that `handle_parsed` handed to `publish` are the accepted ones, the
ones still pending and the ones that `publish` gave up on.  As long as nothing is given up this is an
equation between lists (`Balanced`); one event given up leaves the counts apart for good (`Short`).

So the tape and the ticks are complete when the consumer exits exactly if no publish met a full ring in
all of its 65 attempts.  That it can is shown by a burst of trades (`burst_loses_trade`): nothing makes
the feed thread wait for the consumer.
-/
import MarketDataPipeline.Book.Ticks
import MarketDataPipeline.Feed.Threads

namespace MarketDataPipeline.Feed

open MarketDataPipeline.Wire
open MarketDataPipeline.Book
open MarketDataPipeline.Queue

/-! ## The events of a list of frames -/

/-- The trade events of the trades among some calls of the book. -/
def tradeEvents (msgs : List BookMsg) : List TradeEvent :=
  msgs.filterMap fun
    | .trade m => some (tradeEventOf m)
    | .add _ | .modify _ | .delete _ => none

theorem ticksOf_append (a b : List PipelineEvent) : ticksOf (a ++ b) = ticksOf a ++ ticksOf b :=
  List.filterMap_append

theorem tradesOf_append (a b : List PipelineEvent) : tradesOf (a ++ b) = tradesOf a ++ tradesOf b :=
  List.filterMap_append

theorem ticksOf_eventsOf (b : BookBuilder) (m : BookMsg) :
    ticksOf (eventsOf b m) = (b.handle m).2.toList := by
  unfold eventsOf
  cases (b.handle m).2 <;> cases m <;> rfl

theorem tradesOf_eventsOf (b : BookBuilder) (m : BookMsg) :
    tradesOf (eventsOf b m) = tradeEvents [m] := by
  unfold eventsOf
  cases (b.handle m).2 <;> cases m <;> rfl

/-- **The events of a replay**: the ticks that the book returned, and an event for each trade. -/
theorem published_replay (frames : List (List UInt8)) :
    ticksOf (Outputs.replay frames).published = ticksFrom {} (bookMsgs frames) ∧
      tradesOf (Outputs.replay frames).published = tradeEvents (bookMsgs frames) := by
  induction frames using List.reverseRecOn with
  | nil => exact ⟨rfl, rfl⟩
  | append_singleton pre f ih =>
    rw [Outputs.replay_snoc, bookMsgs_snoc]
    cases h : bookMsg? (parseMessage f).payload with
    | none =>
      rw [Outputs.handleParsed_none h, Option.toList_none, List.append_nil]
      exact ih
    | some m =>
      rw [Outputs.handleParsed_some h, Option.toList_some]
      dsimp only
      refine ⟨?_, ?_⟩
      · rw [ticksOf_append, ticksOf_eventsOf, ih.1, ticksFrom_snoc, Outputs.replay_book]
        rfl
      · rw [tradesOf_append, tradesOf_eventsOf, ih.2]
        exact List.filterMap_append.symm

/-! ## Handling one frame -/

namespace FeedHandler

variable {h : FeedHandler}

theorem handleReady_replay (hr : h.toOutputs = Outputs.replay h.handled) (f : List UInt8) :
    (h.handleReady f).toOutputs = Outputs.replay (h.handleReady f).handled := by
  unfold handleReady
  dsimp only
  split
  · rw [Outputs.replay_snoc, ← hr]
  · exact hr

theorem handleReady_handled (h : FeedHandler) (f : List UInt8) :
    h.handled <+: (h.handleReady f).handled := by
  unfold handleReady
  dsimp only
  split
  · exact List.prefix_append _ _
  · exact List.prefix_rfl

theorem handleParsed_published (o : Outputs) (msg : ParsedMessage) :
    o.published <+: (o.handleParsed msg).published := by
  cases hm : bookMsg? msg.payload with
  | none =>
    rw [Outputs.handleParsed_none hm]
  | some m =>
    rw [Outputs.handleParsed_some hm]
    exact List.prefix_append _ _

theorem handleReady_published (h : FeedHandler) (f : List UInt8) :
    h.published <+: (h.handleReady f).published := by
  unfold handleReady
  dsimp only
  split
  · exact handleParsed_published _ _
  · exact List.prefix_rfl

/-- A frame that does not get into the log leaves no trace. -/
theorem handleReady_of_unhandled {f : List UInt8} (hs : (h.handleReady f).handled = h.handled) :
    h.handleReady f = h := by
  unfold handleReady at hs ⊢
  dsimp only at hs ⊢
  split at hs
  case isTrue => exact absurd hs (by simp)
  case isFalse hbad => rw [if_neg hbad]

end FeedHandler

/-- A run in which the feed thread handles delivered frames. -/
def runFrames (turns : List (PipelineTurn (List UInt8))) : PipelineState :=
  runPipeline FeedHandler.handleReady turns

@[simp] theorem runFrames_snoc (pre : List (PipelineTurn (List UInt8)))
    (turn : PipelineTurn (List UInt8)) :
    runFrames (pre ++ [turn]) = (runFrames pre).step FeedHandler.handleReady turn :=
  runPipeline_snoc ..

theorem runFrames_linked (turns : List (PipelineTurn (List UInt8))) : (runFrames turns).Linked :=
  runPipeline_linked turns

/-! ## Counting events -/

namespace PipelineState

variable {s : PipelineState} {turn : PipelineTurn (List UInt8)}

/-- Everything handed to `publish` has been accepted or is pending. -/
def Balanced (s : PipelineState) : Prop := s.handler.published = s.accepted ++ s.feed.pending

/-- No more has been accepted or is pending than was handed to `publish`. -/
def Covered (s : PipelineState) : Prop :=
  s.accepted.length + s.feed.pending.length ≤ s.handler.published.length

/-- Something handed to `publish` is neither accepted nor pending. -/
def Short (s : PipelineState) : Prop :=
  s.accepted.length + s.feed.pending.length < s.handler.published.length

/-- The feed thread gives an event up. -/
def Drops (s : PipelineState) : PipelineTurn (List UInt8) → Prop
  | .feed _ _ => s.Dropping
  | .consumer | .requestStop => False

/-- The events of a frame are appended to the log and become pending. -/
theorem published_handleReady (h : FeedHandler) (f : List UInt8) :
    (h.handleReady f).published
      = h.published ++ (h.handleReady f).published.drop h.published.length := by
  obtain ⟨new, hnew⟩ := h.handleReady_published f
  rw [← hnew, List.drop_left]

theorem Linked.balanced_step (h : s.Linked) (hb : s.Balanced) (hdrop : ¬ s.Drops turn) :
    (s.step FeedHandler.handleReady turn).Balanced := by
  cases turn with
  | requestStop => exact hb
  | consumer =>
    have hf := stepLoop_frame s
    show s.stepLoop.handler.published = s.stepLoop.accepted ++ s.stepLoop.feed.pending
    rw [hf.handler, hf.accepted, hf.feed]
    exact hb
  | feed expired arrival =>
    unfold Balanced at hb
    show (s.stepFeed FeedHandler.handleReady expired arrival).Balanced
    unfold Balanced
    cases h.stepFeed_spec FeedHandler.handleReady expired arrival with
    | quiet _ _ handler accepted pending =>
      rw [handler, accepted, pending]
      exact hb
    | arrive f _ _ feed handler accepted pending =>
      rw [feed] at hb
      have hnew : s.handler.published = s.accepted := hb.trans (List.append_nil _)
      rw [handler, accepted, pending, ← hnew]
      exact published_handleReady s.handler f
    | accept ev _ _ handler accepted pending =>
      rw [pending] at hb
      rw [handler, accepted, hb, List.append_assoc]
      rfl
    | drop _ _ hd => exact absurd hd hdrop

/-- The counts come apart with an event that is given up, and never come together again. -/
theorem Linked.counts_feed (h : s.Linked) (expired : Bool) (arrival : Option (List UInt8)) :
    let s' := s.stepFeed FeedHandler.handleReady expired arrival
    (s.Covered → s'.Covered) ∧ (s.Short → s'.Short) ∧ (s.Covered → s.Dropping → s'.Short) := by
  unfold Covered Short
  dsimp only
  cases h.stepFeed_spec FeedHandler.handleReady expired arrival with
  | quiet _ hno handler accepted pending =>
    rw [handler, accepted, pending]
    exact ⟨id, id, fun _ hd => absurd hd hno⟩
  | arrive f _ hno feed handler accepted pending =>
    have hlen := congrArg List.length (published_handleReady s.handler f)
    rw [List.length_append] at hlen
    rw [handler, accepted, pending, feed]
    simp only [FeedPc.pending, List.length_nil]
    refine ⟨?_, ?_, fun _ hd => absurd hd hno⟩ <;> omega
  | accept ev _ hno handler accepted pending =>
    rw [handler, accepted, pending, List.length_append, List.length_cons, List.length_singleton]
    refine ⟨?_, ?_, fun _ hd => absurd hd hno⟩ <;> omega
  | drop ev _ _ handler accepted pending =>
    rw [handler, accepted, pending, List.length_cons]
    refine ⟨?_, ?_, ?_⟩ <;> omega

theorem Linked.counts_step (h : s.Linked) (turn : PipelineTurn (List UInt8)) :
    let s' := s.step FeedHandler.handleReady turn
    (s.Covered → s'.Covered) ∧ (s.Short → s'.Short) ∧ (s.Covered → s.Drops turn → s'.Short) := by
  cases turn with
  | requestStop => exact ⟨id, id, fun _ hd => hd.elim⟩
  | consumer =>
    have hf := stepLoop_frame s
    show (s.Covered → s.stepLoop.Covered) ∧ (s.Short → s.stepLoop.Short) ∧ _
    unfold Covered Short
    rw [hf.handler, hf.accepted, hf.feed]
    exact ⟨id, id, fun _ hd => hd.elim⟩
  | feed expired arrival => exact h.counts_feed expired arrival

end PipelineState

theorem runFrames_covered (turns : List (PipelineTurn (List UInt8))) :
    (runFrames turns).Covered := by
  induction turns using List.reverseRecOn with
  | nil => exact Nat.le_refl 0
  | append_singleton pre turn ih =>
    rw [runFrames_snoc]
    exact ((runFrames_linked pre).counts_step turn).1 ih

/-- One event given up is missing from then on. -/
theorem runFrames_short {pre : List (PipelineTurn (List UInt8))} {turn : PipelineTurn (List UInt8)}
    (hdrop : (runFrames pre).Drops turn) (post : List (PipelineTurn (List UInt8))) :
    (runFrames (pre ++ [turn] ++ post)).Short := by
  induction post using List.reverseRecOn with
  | nil =>
    rw [List.append_nil, runFrames_snoc]
    exact ((runFrames_linked pre).counts_step turn).2.2 (runFrames_covered pre) hdrop
  | append_singleton post turn' ih =>
    rw [← List.append_assoc, runFrames_snoc]
    exact ((runFrames_linked _).counts_step turn').2.1 ih

theorem runFrames_balanced {turns : List (PipelineTurn (List UInt8))}
    (hnone : ∀ pre turn, pre ++ [turn] <+: turns → ¬ (runFrames pre).Drops turn) :
    (runFrames turns).Balanced := by
  induction turns using List.reverseRecOn with
  | nil => rfl
  | append_singleton pre turn ih =>
    rw [runFrames_snoc]
    refine (runFrames_linked pre).balanced_step (ih ?_) (hnone pre turn List.prefix_rfl)
    exact fun p t hp => hnone p t (hp.trans (List.prefix_append _ _))

/-! ## Stopping after the last frame -/

/-- Other threads request the stop only after the last frame has been handled: nothing is pending then,
and no frame is handled later. -/
def StopsAfterFrames (turns : List (PipelineTurn (List UInt8))) : Prop :=
  ∀ pre, pre ++ [.requestStop] <+: turns →
    (runFrames pre).feed.pending = [] ∧
      (runFrames turns).handler.handled = (runFrames pre).handler.handled

theorem stopsAfterFrames_of_notMem {turns : List (PipelineTurn (List UInt8))}
    (h : PipelineTurn.requestStop ∉ turns) : StopsAfterFrames turns :=
  fun _ hpre => absurd (hpre.subset (List.mem_append_right _ (List.mem_singleton_self _))) h

namespace PipelineState

variable {s : PipelineState}

/-- `run` is behind its own `request_stop`. -/
def Behind (s : PipelineState) : Prop := s.feed = .joining ∨ s.feed = .done

theorem pending_of_behind (h : s.Behind) : s.feed.pending = [] := by
  rcases h with h | h <;> exact congrArg FeedPc.pending h

theorem behind_stepFeed {α : Type} {handle : FeedHandler → α → FeedHandler} {expired : Bool}
    {arrival : Option α} (h : s.Behind) : (s.stepFeed handle expired arrival).Behind := by
  unfold Behind stepFeed
  rcases h with hfeed | hfeed
  · rw [hfeed]
    dsimp only
    split
    · exact Or.inr rfl
    · exact Or.inl hfeed
  · rw [hfeed]
    exact Or.inr hfeed

theorem stepFeed_stop {α : Type} {handle : FeedHandler → α → FeedHandler} {expired : Bool}
    {arrival : Option α} (h : (s.stepFeed handle expired arrival).stop = true) :
    s.stop = true ∨ (s.stepFeed handle expired arrival).Behind := by
  unfold stepFeed at h ⊢
  cases hfeed : s.feed with
  | leaving => exact Or.inr (Or.inl rfl)
  | check | joining =>
    rw [hfeed] at h
    dsimp only at h
    split at h <;> exact Or.inl h
  | receive =>
    rw [hfeed] at h
    cases arrival <;> exact Or.inl h
  | publishing failed ev later =>
    rw [hfeed] at h
    dsimp only at h
    cases hcall : s.ring.pushReturns id ev with
    | none =>
      rw [hcall] at h
      exact Or.inl h
    | some pushed =>
      rw [hcall] at h
      cases pushed with
      | true => exact Or.inl h
      | false =>
        dsimp only at h
        split at h <;> exact Or.inl h
  | done =>
    rw [hfeed] at h
    exact Or.inl h

/-- Once the flag is set nothing is pending any more, and of the frames in `frames` none is left. -/
def Settled (frames : List (List UInt8)) (s : PipelineState) : Prop :=
  s.stop = true → s.feed.pending = [] ∧ (s.handler.handled = frames ∨ s.Behind)

theorem Settled.stepFeed {frames : List (List UInt8)} (hs : s.Settled frames) (h : s.Linked)
    {expired : Bool} {arrival : Option (List UInt8)}
    (hlast : (s.stepFeed FeedHandler.handleReady expired arrival).handler.handled <+: frames) :
    (s.stepFeed FeedHandler.handleReady expired arrival).Settled frames := by
  intro hstop
  rcases stepFeed_stop hstop with hbefore | hbehind
  · obtain ⟨hnone, hdone | hbehind⟩ := hs hbefore
    · cases h.stepFeed_spec FeedHandler.handleReady expired arrival with
      | quiet _ _ handler _ pending =>
        rw [handler, pending]
        exact ⟨hnone, Or.inl hdone⟩
      | arrive f _ _ _ handler _ pending =>
        -- a frame may still arrive, but only one that is not handled
        rw [handler] at hlast
        have hsame : (s.handler.handleReady f).handled = s.handler.handled := by
          rw [← hdone] at hlast
          exact (List.IsPrefix.eq_of_length_le (s.handler.handleReady_handled f)
            hlast.length_le).symm
        rw [handler, pending, FeedHandler.handleReady_of_unhandled hsame, List.drop_length]
        exact ⟨rfl, Or.inl hdone⟩
      | accept ev _ _ _ _ pending =>
        rw [pending] at hnone
        cases hnone
      | drop ev _ _ _ _ pending =>
        rw [pending] at hnone
        cases hnone
    · have hstill : (s.stepFeed FeedHandler.handleReady expired arrival).Behind :=
        behind_stepFeed hbehind
      exact ⟨pending_of_behind hstill, Or.inr hstill⟩
  · exact ⟨pending_of_behind hbehind, Or.inr hbehind⟩

theorem Settled.stepLoop {frames : List (List UInt8)} (hs : s.Settled frames) :
    s.stepLoop.Settled frames := by
  have hf := stepLoop_frame s
  unfold Settled Behind at hs ⊢
  rw [hf.stop, hf.feed, hf.handler]
  exact hs

end PipelineState

theorem runFrames_handled {pre turns : List (PipelineTurn (List UInt8))} (h : pre <+: turns) :
    (runFrames pre).handler.handled <+: (runFrames turns).handler.handled := by
  obtain ⟨post, rfl⟩ := h
  induction post using List.reverseRecOn with
  | nil => rw [List.append_nil]
  | append_singleton post turn ih =>
    rw [← List.append_assoc, runFrames_snoc]
    refine ih.trans ?_
    rcases (runFrames_linked (pre ++ post)).handler_step FeedHandler.handleReady turn with heq | ⟨f, heq⟩
    · rw [heq]
    · rw [heq]
      exact FeedHandler.handleReady_handled _ f

/-- **After the stop nothing is published**, in every state of the run. -/
theorem runFrames_settled {turns : List (PipelineTurn (List UInt8))} (hstop : StopsAfterFrames turns) :
    ∀ pre, pre <+: turns → (runFrames pre).Settled (runFrames turns).handler.handled := by
  intro pre
  induction pre using List.reverseRecOn with
  | nil =>
    intro _ hset
    cases hset
  | append_singleton pre turn ih =>
    intro hpre
    have hs := ih ((List.prefix_append _ _).trans hpre)
    have hlast := runFrames_handled hpre
    rw [runFrames_snoc] at hlast ⊢
    cases turn with
    | feed expired arrival => exact hs.stepFeed (runFrames_linked pre) hlast
    | consumer => exact hs.stepLoop
    | requestStop =>
      obtain ⟨hnone, hdone⟩ := hstop pre hpre
      exact fun _ => ⟨hnone, Or.inl hdone.symm⟩

/-- So everything accepted has been handed on when the consumer leaves its loop. -/
theorem runFrames_drained {turns : List (PipelineTurn (List UInt8))} (hstop : StopsAfterFrames turns) :
    ∀ pre, pre <+: turns → (runFrames pre).Drained := by
  intro pre
  induction pre using List.reverseRecOn with
  | nil =>
    intro _ hleft
    cases hleft
  | append_singleton pre turn ih =>
    intro hpre
    have hbefore := (List.prefix_append pre [turn]).trans hpre
    have hlinked := runFrames_linked pre
    rw [runFrames_snoc]
    refine hlinked.drained_step (ih hbefore) ?_ _
    intro hlate
    cases turn with
    | consumer | requestStop => exact hlate
    | feed expired arrival =>
      obtain ⟨hleft, hret⟩ := hlate
      obtain ⟨hnone, -⟩ :=
        runFrames_settled hstop pre hbefore (hlinked.loop.stopped (Or.inr hleft))
      exact hlinked.feed.not_returning hnone hret

/-- The handler's book and events are those of the frames it has handled. -/
theorem runFrames_replay (turns : List (PipelineTurn (List UInt8))) :
    (runFrames turns).handler.toOutputs = Outputs.replay (runFrames turns).handler.handled := by
  induction turns using List.reverseRecOn with
  | nil => rfl
  | append_singleton pre turn ih =>
    rw [runFrames_snoc]
    rcases (runFrames_linked pre).handler_step FeedHandler.handleReady turn with heq | ⟨f, heq⟩
    · rw [heq]
      exact ih
    · rw [heq]
      exact FeedHandler.handleReady_replay ih f

/-! ## The tape -/

/-- The consumers have been called for every trade and for every tick of the book, once and in order. -/
def TapeComplete (s : PipelineState) : Prop :=
  s.sinks.tape = tradeEvents (bookMsgs s.handler.handled) ∧
    s.sinks.bbo = ticksFrom {} (bookMsgs s.handler.handled)

instance (s : PipelineState) : Decidable (TapeComplete s) := inferInstanceAs (Decidable (_ ∧ _))

/-- When the consumer has exited, the consumers have been called for what was accepted, and nothing is
pending. -/
theorem runFrames_exited {turns : List (PipelineTurn (List UInt8))} (hstop : StopsAfterFrames turns)
    (hexit : (runFrames turns).loop = .exited) :
    (runFrames turns).sinks = .after (runFrames turns).accepted ∧
      (runFrames turns).feed.pending = [] := by
  have hleft : (runFrames turns).loop.left = true := by
    rw [hexit]
    rfl
  refine ⟨runFrames_drained hstop turns List.prefix_rfl hleft, ?_⟩
  exact (runFrames_settled hstop turns List.prefix_rfl
    ((runFrames_linked turns).loop.stopped (Or.inr hleft))).1

/-- The tape is that of the accepted events, so it is complete if these are all. -/
theorem tapeComplete_iff {turns : List (PipelineTurn (List UInt8))} (hstop : StopsAfterFrames turns)
    (hexit : (runFrames turns).loop = .exited) :
    TapeComplete (runFrames turns) ↔
      tradesOf (runFrames turns).accepted = tradesOf (runFrames turns).handler.published ∧
        ticksOf (runFrames turns).accepted = ticksOf (runFrames turns).handler.published := by
  have hpublished := published_replay (runFrames turns).handler.handled
  rw [← runFrames_replay turns] at hpublished
  unfold TapeComplete
  rw [← hpublished.1, ← hpublished.2, (runFrames_exited hstop hexit).1]
  rfl

/-- An event that was given up is missing at the end. -/
theorem not_tapeComplete_of_drop {pre post : List (PipelineTurn (List UInt8))}
    {turn : PipelineTurn (List UInt8)} (hdrop : (runFrames pre).Drops turn)
    (hstop : StopsAfterFrames (pre ++ [turn] ++ post))
    (hexit : (runFrames (pre ++ [turn] ++ post)).loop = .exited) :
    ¬ TapeComplete (runFrames (pre ++ [turn] ++ post)) := by
  rw [tapeComplete_iff hstop hexit]
  rintro ⟨htape, hbbo⟩
  have hshort := runFrames_short hdrop post
  unfold PipelineState.Short at hshort
  rw [(runFrames_exited hstop hexit).2, PipelineState.length_eq_ticks_trades,
    PipelineState.length_eq_ticks_trades (runFrames _).handler.published, hbbo, htape] at hshort
  exact Nat.lt_irrefl _ hshort

/-- **When the tape and the ticks are complete.** In a run of the two threads in which the stop is
requested only after the last frame, when the consumer exits: `on_trade` has been called once for each
trade among the frames and `on_tick` once for each tick that the book returned, both in order, exactly if
no publish gave its event up. -/
theorem tape_complete_unless_dropped (turns : List (PipelineTurn (List UInt8)))
    (hstop : StopsAfterFrames turns) (hexit : (runFrames turns).loop = .exited) :
    TapeComplete (runFrames turns) ↔
      ∀ pre turn, pre ++ [turn] <+: turns → ¬ (runFrames pre).Drops turn := by
  constructor
  · rintro hcomplete pre turn ⟨post, rfl⟩ hdrop
    exact not_tapeComplete_of_drop hdrop hstop hexit hcomplete
  · intro hall
    have hbalanced := runFrames_balanced hall
    unfold PipelineState.Balanced at hbalanced
    rw [(runFrames_exited hstop hexit).2, List.append_nil] at hbalanced
    rw [tapeComplete_iff hstop hexit, hbalanced]
    exact ⟨rfl, rfl⟩

/-- One trade, and a consumer that runs after the feed thread is done. -/
def oneTrade : List (PipelineTurn (List UInt8)) :=
  [PipelineTurn.feed false none, .feed false (some firstTrade)] ++
    List.replicate 10 (PipelineTurn.feed false none) ++
    [PipelineTurn.feed true none, .feed false none] ++ List.replicate 19 PipelineTurn.consumer

theorem tape_complete_unless_dropped_one :
    (runFrames oneTrade).sinks.tape.length = 1 ∧ (runFrames oneTrade).sinks.bbo.length = 1 ∧
      ∀ pre turn, pre ++ [turn] <+: oneTrade → ¬ (runFrames pre).Drops turn := by
  have hstop : StopsAfterFrames oneTrade := stopsAfterFrames_of_notMem (by simp [oneTrade])
  obtain ⟨htape, hbbo, hexit, hcomplete⟩ : (runFrames oneTrade).sinks.tape.length = 1 ∧
      (runFrames oneTrade).sinks.bbo.length = 1 ∧ (runFrames oneTrade).loop = .exited ∧
      TapeComplete (runFrames oneTrade) := by
    decide +kernel
  exact ⟨htape, hbbo, (tape_complete_unless_dropped oneTrade hstop hexit).mp hcomplete⟩

/-! ## A thread that runs alone -/

namespace PipelineState

variable {α : Type} {handle : FeedHandler → α → FeedHandler} {s : PipelineState} {failed : Nat}
  {ev : PipelineEvent} {later : List PipelineEvent} {expired : Bool} {arrival : Option α}

/-- Turns of one thread that only move the ring on. -/
theorem ring_alone {turn : PipelineTurn α} {move : SpscState PipelineEvent 14 → SpscState PipelineEvent 14}
    {quiet : SpscState PipelineEvent 14 → Prop}
    (hstep : ∀ ring, quiet ring → step handle { s with ring := ring } turn = { s with ring := move ring })
    (n : Nat) (hquiet : ∀ i, i < n → quiet (move^[i] s.ring)) :
    (List.replicate n turn).foldl (step handle) s = { s with ring := move^[n] s.ring } := by
  induction n with
  | zero => rfl
  | succ n ih =>
    rw [List.replicate_succ', List.foldl_append, ih fun i hi => hquiet i (Nat.lt_succ_of_lt hi)]
    rw [List.foldl_cons, List.foldl_nil, Function.iterate_succ_apply']
    exact hstep _ (hquiet n (Nat.lt_succ_self n))

/-- Turns of the feed thread inside one push. -/
theorem feed_alone (hfeed : s.feed = .publishing failed ev later) (n : Nat)
    (hcalls : ∀ i, i < n → ((SpscState.stepProducer id ev)^[i] s.ring).pushReturns id ev = none) :
    (List.replicate n (PipelineTurn.feed expired arrival)).foldl (step handle) s
      = { s with ring := (SpscState.stepProducer id ev)^[n] s.ring } := by
  have hstep : ∀ ring : SpscState PipelineEvent 14, ring.pushReturns id ev = none →
      step handle { s with ring := ring } (.feed expired arrival)
        = { s with ring := ring.stepProducer id ev } :=
    fun ring hcall => step_push_none (s := { s with ring := ring }) hfeed hcall
  exact ring_alone hstep n hcalls

theorem loop_alone (hloop : s.loop = .popping) (n : Nat)
    (hcalls : ∀ i, i < n → ((SpscState.stepConsumer id)^[i] s.ring).popReturns id = none) :
    (List.replicate n PipelineTurn.consumer).foldl (step handle) s
      = { s with ring := (SpscState.stepConsumer id)^[n] s.ring } := by
  have hstep : ∀ ring : SpscState PipelineEvent 14, ring.popReturns id = none →
      step handle { s with ring := ring } .consumer = { s with ring := ring.stepConsumer id } :=
    fun ring hcall => stepLoop_pop_none (s := { s with ring := ring }) hloop hcall
  exact ring_alone hstep n hcalls

/-- A publish with room in the ring. -/
theorem publish_alone (h : s.Linked) (hfeed : s.feed = .publishing failed ev later)
    (hidle : s.ring.producer = .idle) (hroom : s.ring.outstanding ≠ 2 ^ 14) :
    (List.replicate 5 (PipelineTurn.feed expired arrival)).foldl (step handle) s
      = { s with
          ring := (SpscState.stepProducer id ev)^[5] s.ring
          accepted := s.accepted ++ [ev]
          feed := .next later } := by
  obtain ⟨hcalls, hlast⟩ := h.ring.push_alone (by decide) (by decide) id ev hidle hroom
  rw [List.replicate_succ', List.foldl_append, feed_alone hfeed 4 hcalls]
  exact step_push_true hfeed hlast

/-- A try that fails, before the last one. -/
theorem retry_alone (h : s.Linked) (hfeed : s.feed = .publishing failed ev later)
    (hidle : s.ring.producer = .idle) (hfull : s.ring.outstanding = 2 ^ 14) (hlt : failed < 64) :
    (List.replicate 2 (PipelineTurn.feed expired arrival)).foldl (step handle) s
      = { s with
          ring := (SpscState.stepProducer id ev)^[2] s.ring
          feed := .publishing (failed + 1) ev later } := by
  obtain ⟨hstart, hfail⟩ := h.ring.push_full (by decide) (by decide) id ev hidle hfull
  have hlast : step handle { s with ring := s.ring.stepProducer id ev } (.feed expired arrival) = _ :=
    step_push_false hfeed hfail
  rw [if_pos hlt] at hlast
  rw [List.replicate_succ, List.replicate_one, List.foldl_cons, List.foldl_cons, List.foldl_nil,
    step_push_none hfeed hstart]
  exact hlast

/-- Outside a push, what has been accepted is what has been pushed. -/
theorem Linked.pushed_eq (h : s.Linked) (hproducer : s.ring.producer = .idle) :
    s.ring.pushed = s.accepted := by
  have hpushed := h.feed.accepted
  unfold SpscState.inFlight at hpushed
  simp only [hproducer, List.append_nil] at hpushed
  exact hpushed

/-- Between calls of both threads the ring holds what is accepted and not yet popped. -/
theorem Linked.outstanding_eq (h : s.Linked) (hproducer : s.ring.producer = .idle)
    (hconsumer : s.ring.consumer = .idle) :
    s.ring.outstanding = s.accepted.length - s.ring.returned.length := by
  have hpopped := h.ring.consumer
  unfold SpscState.ConsumerOk at hpopped
  rw [hconsumer] at hpopped
  unfold SpscState.outstanding
  rw [h.pushed_eq hproducer, ← hpopped.2]

end PipelineState

/-- The invariant at the end of some turns. -/
theorem PipelineState.Linked.run {α : Type} {handle : FeedHandler → α → FeedHandler}
    {s s' : PipelineState} (h : s.Linked) {turns : List (PipelineTurn α)}
    (hrun : turns.foldl (PipelineState.step handle) s = s') : s'.Linked := by
  rw [← hrun]
  exact List.foldlRecOn turns _ h fun _ hs turn _ => hs.step turn

/-! ## The consumer alone -/

namespace PipelineState

/-- The flag is set, the feed thread is done publishing, and `n` events are left in the ring. -/
structure Draining (n : Nat) (s : PipelineState) : Prop where
  linked : s.Linked
  stop : s.stop = true
  loop : s.loop = .test
  producer : s.ring.producer = .idle
  left : s.accepted.length = s.ring.returned.length + n

variable {s : PipelineState} {n : Nat}

theorem Draining.consumer (h : s.Draining n) : s.ring.consumer = .idle :=
  h.linked.loop.pc (by rw [h.loop]; decide)

/-- The test of the loop finds the ring empty when nothing is left. -/
theorem Draining.empty_iff (h : s.Draining n) : s.ring.head = s.ring.tail ↔ n = 0 := by
  rw [h.linked.ring.empty_iff h.linked.feed.head (by decide) h.consumer h.linked.feed.accepted]
  have hleft := h.left
  constructor
  · intro heq
    rw [heq] at hleft
    omega
  · intro hzero
    have hpre := h.linked.ring.returned_of_pushed
    rw [h.linked.pushed_eq h.producer] at hpre
    exact (hpre.eq_of_length (by omega)).symm

/-- A turn of the loop that finds something. -/
theorem Draining.turn {α : Type} (handle : FeedHandler → α → FeedHandler) (h : s.Draining (n + 1)) :
    (List.replicate 8 PipelineTurn.consumer).foldl (PipelineState.step handle) s
      = { s with
          ring := (SpscState.stepConsumer id)^[5] s.ring
          sinks := s.sinks.hand ((SpscState.stepConsumer id)^[5] s.ring).out
          loop := .test } ∧
    ((SpscState.stepConsumer id)^[5] s.ring).returned.length = s.ring.returned.length + 1 := by
  have hsome : s.ring.outstanding ≠ 0 := by
    rw [h.linked.outstanding_eq h.producer h.consumer, h.left]
    omega
  obtain ⟨hcalls, hlast⟩ := h.linked.ring.pop_alone (by decide) id h.consumer hsome
  have htest : s.step handle .consumer = { s with loop := .empty } := by
    simp only [PipelineState.step, stepLoop, h.loop, h.stop, if_true]
  have hempty : PipelineState.step handle { s with loop := .empty } .consumer
      = { s with loop := .popping } := by
    simp only [PipelineState.step, stepLoop]
    rw [if_neg fun heq => absurd (h.empty_iff.mp heq) (Nat.succ_ne_zero n)]
  have hpop : (List.replicate 4 PipelineTurn.consumer).foldl (PipelineState.step handle)
      { s with loop := .popping } = _ := loop_alone rfl 4 hcalls
  have hpopped : PipelineState.step handle
      { s with loop := .popping, ring := (SpscState.stepConsumer id)^[4] s.ring } .consumer
      = { s with loop := .handing, ring := (SpscState.stepConsumer id)^[5] s.ring } := by
    rw [Function.iterate_succ_apply' _ 4]
    exact stepLoop_pop_true
      (s := { s with loop := .popping, ring := (SpscState.stepConsumer id)^[4] s.ring }) rfl hlast
  refine ⟨?_, ?_⟩
  · rw [show List.replicate 8 (PipelineTurn.consumer (α := α))
        = [.consumer, .consumer] ++ (List.replicate 4 .consumer ++ [.consumer, .consumer]) from rfl,
      List.foldl_append, List.foldl_append]
    simp only [List.foldl_cons, List.foldl_nil]
    rw [htest, hempty, hpop, hpopped]
    rfl
  · have heffect := SpscState.pop_effect id ((SpscState.stepConsumer id)^[4] s.ring)
    rw [hlast] at heffect
    rw [Function.iterate_succ_apply', heffect.2, SpscState.returned_iterate_stepConsumer id hcalls,
      List.length_append, List.length_singleton]

theorem Draining.next {α : Type} {handle : FeedHandler → α → FeedHandler} (h : s.Draining (n + 1)) :
    ((List.replicate 8 PipelineTurn.consumer).foldl (PipelineState.step handle) s).Draining n := by
  obtain ⟨hrun, hone⟩ := h.turn handle
  rw [hrun]
  refine ⟨h.linked.run hrun, h.stop, rfl, ?_, ?_⟩
  · exact (SpscState.producer_iterate_stepConsumer id 5 s.ring).trans h.producer
  · have hleft := h.left
    dsimp only
    omega

/-- **A consumer that runs alone exits.** -/
theorem Draining.exits {α : Type} {handle : FeedHandler → α → FeedHandler} (h : s.Draining n) :
    ((List.replicate (8 * n + 3) PipelineTurn.consumer).foldl (PipelineState.step handle) s).loop
      = .exited := by
  induction n generalizing s with
  | zero =>
    have hempty : s.ring.head = s.ring.tail := h.empty_iff.mpr rfl
    simp [List.replicate_succ, PipelineState.step, stepLoop, h.loop, h.stop, hempty]
  | succ n ih =>
    rw [show 8 * (n + 1) + 3 = 8 + (8 * n + 3) by omega, List.replicate_add, List.foldl_append]
    exact ih h.next

end PipelineState

/-! ## A burst -/

/-- A trade of symbol 0 at a price outside the book: an event for the tape, and no tick. -/
def burstFrame (seq : Nat) : List UInt8 :=
  (EncodeCall.trade {} (UInt64.ofNat seq) 1 7 0 .buy 5000 5).bytes

theorem published_burstFrame (h : FeedHandler) (seq : Nat) :
    ∃ ev, (h.handleReady (burstFrame seq)).published = h.published ++ [ev] := by
  have hparse := EncodeCall.parse_bytes (.trade {} (UInt64.ofNat seq) 1 7 0 .buy 5000 5) []
  rw [List.append_nil] at hparse
  unfold FeedHandler.handleReady burstFrame
  rw [hparse]
  dsimp only
  rw [if_pos rfl]
  let m : Trade := ⟨⟨.trade, 44, UInt64.ofNat seq, 1⟩, 7, 0, .buy, 5000, 5⟩
  refine ⟨.trade (tradeEventOf m), ?_⟩
  rw [Outputs.handleParsed_some (m := .trade m) rfl]
  rfl

/-- The two turns that take a frame. -/
def takeFrame (seq : Nat) : List (PipelineTurn (List UInt8)) :=
  [.feed false none, .feed false (some (burstFrame seq))]

/-- The turns of the feed thread for `n` frames, with room for all of them in the ring. -/
def fillTurns : Nat → List (PipelineTurn (List UInt8))
  | 0 => []
  | n + 1 => fillTurns n ++ takeFrame (n + 1) ++ List.replicate 5 (.feed false none)

/-- One more frame than the ring has room for, the end of the feed thread's loop, and a consumer that
runs only then. -/
def burstTurns : List (PipelineTurn (List UInt8)) :=
  fillTurns (2 ^ 14) ++ takeFrame (2 ^ 14 + 1) ++
    List.replicate 129 (PipelineTurn.feed false none) ++ [PipelineTurn.feed false none] ++
    ([PipelineTurn.feed true none, .feed false none] ++
      List.replicate (8 * 2 ^ 14 + 3) PipelineTurn.consumer)

namespace PipelineState

variable {s : PipelineState} {n failed : Nat} {ev : PipelineEvent}

/-- The consumer has not run, `n` events are accepted, and the feed thread is at `pc`, not in a push. -/
structure Undisturbed (pc : FeedPc) (n : Nat) (s : PipelineState) : Prop where
  linked : s.Linked
  feed : s.feed = pc
  producer : s.ring.producer = .idle
  loop : s.loop = .test
  stop : s.stop = false
  accepted : s.accepted.length = n
  returned : s.ring.returned = []

theorem Undisturbed.outstanding {pc : FeedPc} (h : s.Undisturbed pc n) :
    s.ring.outstanding = n := by
  have hconsumer : s.ring.consumer = .idle := h.linked.loop.pc (by rw [h.loop]; decide)
  rw [h.linked.outstanding_eq h.producer hconsumer, h.accepted, h.returned]
  rfl

/-- Taking a frame. -/
theorem Undisturbed.take (h : s.Undisturbed .check n) (seq : Nat) :
    ∃ ev, ((takeFrame seq).foldl (PipelineState.step FeedHandler.handleReady) s).Undisturbed
      (.publishing 0 ev []) n := by
  obtain ⟨ev, hev⟩ := published_burstFrame s.handler seq
  have hnew : (s.handler.handleReady (burstFrame seq)).published.drop s.handler.published.length
      = [ev] := by
    rw [hev, List.drop_left]
  have hrun : (takeFrame seq).foldl (PipelineState.step FeedHandler.handleReady) s
      = { s with
          handler := s.handler.handleReady (burstFrame seq)
          feed := .publishing 0 ev [] } := by
    simp [takeFrame, PipelineState.step, stepFeed, h.feed, h.stop, hnew, FeedPc.next]
  rw [hrun]
  exact ⟨ev, h.linked.run hrun, rfl, h.producer, h.loop, h.stop, h.accepted, h.returned⟩

/-- Publishing its event, with room in the ring. -/
theorem Undisturbed.publish (h : s.Undisturbed (.publishing 0 ev []) n) (hn : n < 2 ^ 14) :
    ((List.replicate 5 (PipelineTurn.feed false none)).foldl
      (PipelineState.step FeedHandler.handleReady) s).Undisturbed .check (n + 1) := by
  have hrun : (List.replicate 5 (PipelineTurn.feed false none)).foldl
      (PipelineState.step FeedHandler.handleReady) s = _ :=
    publish_alone h.linked h.feed h.producer (by rw [h.outstanding]; omega)
  have hlinked := h.linked.run hrun
  rw [hrun]
  refine ⟨hlinked, rfl, hlinked.feed.idle_of_pending rfl, h.loop, h.stop, ?_, ?_⟩
  · dsimp only
    rw [List.length_append, h.accepted]
    rfl
  · exact (SpscState.returned_iterate_stepProducer id ev 5 s.ring).trans h.returned

/-- With the ring full a push loads the head, and fails with its next step. -/
theorem Undisturbed.push_full (h : s.Undisturbed (.publishing failed ev []) (2 ^ 14)) :
    s.ring.pushReturns id ev = none ∧
      (s.ring.stepProducer id ev).pushReturns id ev = some false :=
  h.linked.ring.push_full (by decide) (by decide) id ev h.producer h.outstanding

/-- Trying once more. -/
theorem Undisturbed.retry (h : s.Undisturbed (.publishing failed ev []) (2 ^ 14))
    (hlt : failed < 64) :
    ((List.replicate 2 (PipelineTurn.feed false none)).foldl
      (PipelineState.step FeedHandler.handleReady) s).Undisturbed
      (.publishing (failed + 1) ev []) (2 ^ 14) := by
  have hrun : (List.replicate 2 (PipelineTurn.feed false none)).foldl
      (PipelineState.step FeedHandler.handleReady) s = _ :=
    retry_alone h.linked h.feed h.producer h.outstanding hlt
  obtain ⟨-, hfail⟩ := h.push_full
  rw [hrun]
  refine ⟨h.linked.run hrun, rfl, SpscState.idle_of_pushReturns_false hfail, h.loop, h.stop, h.accepted, ?_⟩
  exact (SpscState.returned_iterate_stepProducer id ev 2 s.ring).trans h.returned

theorem Undisturbed.retries (h : s.Undisturbed (.publishing 0 ev []) (2 ^ 14)) (hle : failed ≤ 64) :
    ((List.replicate (2 * failed) (PipelineTurn.feed false none)).foldl
      (PipelineState.step FeedHandler.handleReady) s).Undisturbed
      (.publishing failed ev []) (2 ^ 14) := by
  induction failed with
  | zero => exact h
  | succ failed ih =>
    rw [show 2 * (failed + 1) = 2 * failed + 2 by omega, List.replicate_add, List.foldl_append]
    exact (ih (Nat.le_of_succ_le hle)).retry hle

/-- The last try is about to fail. -/
theorem Undisturbed.dropping (h : s.Undisturbed (.publishing 64 ev []) (2 ^ 14)) :
    (s.step FeedHandler.handleReady (.feed false none)).Dropping := by
  obtain ⟨hstart, -⟩ := h.push_full
  rw [step_push_none h.feed hstart]
  refine ⟨ev, [], s.ring.head, h.feed, ?_, ?_⟩
  · simp [SpscState.stepProducer, h.producer]
  · have hsame : (s.ring.stepProducer id ev).outstanding = s.ring.outstanding := by
      simp [SpscState.outstanding, SpscState.stepProducer, h.producer]
    exact hsame.trans h.outstanding

/-- Giving the event up. -/
theorem Undisturbed.giveUp (h : s.Undisturbed (.publishing 64 ev []) (2 ^ 14)) :
    ([PipelineTurn.feed false none, .feed false none].foldl
      (PipelineState.step FeedHandler.handleReady) s).Undisturbed .check (2 ^ 14) := by
  obtain ⟨hstart, hfail⟩ := h.push_full
  have hlast : PipelineState.step FeedHandler.handleReady
      { s with ring := s.ring.stepProducer id ev } (.feed false none) = _ :=
    step_push_false h.feed hfail
  have hrun : [PipelineTurn.feed false none, .feed false none].foldl
      (PipelineState.step FeedHandler.handleReady) s
      = { s with ring := (SpscState.stepProducer id ev)^[2] s.ring, feed := .check } := by
    rw [List.foldl_cons, List.foldl_cons, List.foldl_nil, step_push_none h.feed hstart]
    exact hlast
  rw [hrun]
  refine ⟨h.linked.run hrun, rfl, SpscState.idle_of_pushReturns_false hfail, h.loop, h.stop, h.accepted, ?_⟩
  exact (SpscState.returned_iterate_stepProducer id ev 2 s.ring).trans h.returned

/-- The deadline: the feed thread leaves its loop and sets the flag. -/
theorem Undisturbed.finish (h : s.Undisturbed .check n) :
    ([PipelineTurn.feed true none, .feed false none].foldl
      (PipelineState.step FeedHandler.handleReady) s).Draining n := by
  have hrun : [PipelineTurn.feed true none, .feed false none].foldl
      (PipelineState.step FeedHandler.handleReady) s = { s with stop := true, feed := .joining } := by
    simp [PipelineState.step, stepFeed, h.feed]
  rw [hrun]
  refine ⟨h.linked.run hrun, rfl, h.loop, h.producer, ?_⟩
  show s.accepted.length = s.ring.returned.length + n
  rw [h.accepted, h.returned, List.length_nil, Nat.zero_add]

end PipelineState

/-- As many frames as the ring has room for. -/
theorem fill_undisturbed (n : Nat) (hn : n ≤ 2 ^ 14) : (runFrames (fillTurns n)).Undisturbed .check n := by
  induction n with
  | zero => exact ⟨PipelineState.linked_init, rfl, rfl, rfl, rfl, rfl, rfl⟩
  | succ n ih =>
    obtain ⟨ev, htaken⟩ := (ih (Nat.le_of_succ_le hn)).take (n + 1)
    unfold runFrames runPipeline fillTurns
    rw [List.foldl_append, List.foldl_append]
    exact htaken.publish hn

/-- No other thread stops the filling. -/
theorem requestStop_notMem_fillTurns (n : Nat) : PipelineTurn.requestStop ∉ fillTurns n := by
  induction n with
  | zero => exact List.not_mem_nil
  | succ n ih =>
    unfold fillTurns takeFrame
    intro hmem
    rcases List.mem_append.mp hmem with hmem | hmem
    · rcases List.mem_append.mp hmem with hmem | hmem
      · exact ih hmem
      · simp at hmem
    · cases List.eq_of_mem_replicate hmem

theorem burstTurns_stopsAfterFrames : StopsAfterFrames burstTurns := by
  apply stopsAfterFrames_of_notMem
  unfold burstTurns takeFrame
  simp only [List.mem_append, List.mem_replicate, List.mem_cons, List.not_mem_nil, reduceCtorEq,
    and_false, or_false, requestStop_notMem_fillTurns, not_false_eq_true]

/-- **A burst loses a trade.** The ring holds `2^14` events; one trade more, and the consumer not
scheduled in between: all 65 attempts find the ring full, and the tape ends without the last trade. -/
theorem burst_loses_trade :
    StopsAfterFrames burstTurns ∧ (runFrames burstTurns).loop = .exited ∧
      ¬ TapeComplete (runFrames burstTurns) := by
  obtain ⟨ev, htaken⟩ := (fill_undisturbed (2 ^ 14) (Nat.le_refl _)).take (2 ^ 14 + 1)
  have hlast := htaken.retries (Nat.le_refl 64)
  have hdrop : (runFrames (fillTurns (2 ^ 14) ++ takeFrame (2 ^ 14 + 1) ++
      List.replicate 129 (PipelineTurn.feed false none))).Drops (.feed false none) := by
    rw [List.replicate_succ', ← List.append_assoc, runFrames_snoc]
    unfold runFrames runPipeline
    rw [List.foldl_append, List.foldl_append]
    exact hlast.dropping
  have hexit : (runFrames burstTurns).loop = .exited := by
    have hturns : burstTurns = fillTurns (2 ^ 14) ++ takeFrame (2 ^ 14 + 1) ++
        List.replicate (2 * 64) (PipelineTurn.feed false none) ++
        [PipelineTurn.feed false none, .feed false none] ++
        [PipelineTurn.feed true none, .feed false none] ++
        List.replicate (8 * 2 ^ 14 + 3) PipelineTurn.consumer := by
      unfold burstTurns
      rw [List.replicate_succ' (n := 128)]
      simp only [List.append_assoc, List.cons_append, List.nil_append]
    rw [hturns]
    unfold runFrames runPipeline
    rw [List.foldl_append, List.foldl_append, List.foldl_append, List.foldl_append,
      List.foldl_append]
    exact hlast.giveUp.finish.exits
  exact ⟨burstTurns_stopsAfterFrames, hexit,
    not_tapeComplete_of_drop hdrop burstTurns_stopsAfterFrames hexit⟩

end MarketDataPipeline.Feed
