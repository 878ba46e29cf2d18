/-
# MarketDataPipeline.Feed.Determined — the files are a function of the session.

Three things are left to chance in a run of the pipeline: in which order and how often the datagrams of
a session arrive and how the recovery attempts go, how the two threads are scheduled, and what the ring
does in between.  If no event is given up on the way and the run ends at its deadline, none of them can
be seen in the output.  The handler has then handled a first part of the session (`Follows`), every
event of it has been accepted (`Balanced`), and the consumer has been handed them all (`Drained`); so
the three files are what a plain pass over these frames would have written.
-/
import MarketDataPipeline.Feed.Files
import MarketDataPipeline.Feed.Shutdown

namespace MarketDataPipeline.Feed

open MarketDataPipeline.Wire
open MarketDataPipeline.Sequence
open MarketDataPipeline.Book

/-! ## One step -/

namespace PipelineState

variable {α : Type} {handle : FeedHandler → α → FeedHandler} {s : PipelineState}

/-- The handler changes only by handling the datagram of the turn. -/
theorem stepFeed_handler (handle : FeedHandler → α → FeedHandler) (expired : Bool)
    (arrival : Option α) (s : PipelineState) :
    (s.stepFeed handle expired arrival).handler = s.handler ∨
      ∃ a, arrival = some a ∧ (s.stepFeed handle expired arrival).handler = handle s.handler a := by
  unfold stepFeed
  cases s.feed with
  | receive =>
    cases arrival with
    | none => exact Or.inl rfl
    | some a => exact Or.inr ⟨a, rfl, rfl⟩
  | check | joining =>
    dsimp only
    split <;> exact Or.inl rfl
  | publishing failed ev later =>
    dsimp only
    split
    · exact Or.inl rfl
    · exact Or.inl rfl
    · split <;> exact Or.inl rfl
  | leaving | done => exact Or.inl rfl

/-- The turn does not give up an event. -/
def Spares (s : PipelineState) : PipelineTurn α → Prop
  | .feed _ _ => ¬ s.Dropping
  | .consumer | .requestStop => True

/-- With no event given up, everything published is accepted or pending. -/
theorem Linked.balanced_spares (h : s.Linked) (hb : s.Balanced) {turn : PipelineTurn α}
    (hgrow : ∀ a, s.handler.published <+: (handle s.handler a).published) (hspares : s.Spares turn) :
    (s.step handle turn).Balanced := by
  unfold Balanced at hb
  cases turn with
  | requestStop => exact hb
  | consumer =>
    have hframe := stepLoop_frame s
    show s.stepLoop.handler.published = s.stepLoop.accepted ++ s.stepLoop.feed.pending
    rw [hframe.handler, hframe.accepted, hframe.feed]
    exact hb
  | feed expired arrival =>
    show (s.stepFeed handle expired arrival).handler.published
      = (s.stepFeed handle expired arrival).accepted ++ (s.stepFeed handle expired arrival).feed.pending
    cases h.stepFeed_spec handle expired arrival with
    | quiet _ _ handler accepted pending =>
      rw [handler, accepted, pending]
      exact hb
    | arrive a _ _ feed handler accepted pending =>
      -- nothing was pending, and what the datagram published is pending now
      obtain ⟨new, hnew⟩ := hgrow a
      rw [feed, show FeedPc.receive.pending = [] from rfl, List.append_nil] at hb
      rw [handler, accepted, pending, ← hnew, List.drop_left, hb]
    | accept ev _ _ handler accepted pending =>
      rw [handler, accepted, hb, pending, List.append_assoc]
      rfl
    | drop ev _ hdrop => exact absurd hdrop hspares

end PipelineState

/-! ## Whole runs -/

/-- The turns bring nothing but datagrams and recoveries of the session. -/
def Carry (S : Session) (turns : List (PipelineTurn (List UInt8 × Recovery))) : Prop :=
  ∀ expired d, PipelineTurn.feed expired (some d) ∈ turns → S.Datagram d.1 ∧ d.2.FromSession S

/-- No turn gives up an event. -/
def Lossless (turns : List (PipelineTurn (List UInt8 × Recovery))) : Prop :=
  ∀ pre turn, pre ++ [turn] <+: turns → (runPipeline receiveDatagram pre).Spares turn

variable {S : Session} {turns : List (PipelineTurn (List UInt8 × Recovery))}

theorem Lossless.init {turn : PipelineTurn (List UInt8 × Recovery)} (h : Lossless (turns ++ [turn])) :
    Lossless turns :=
  fun pre t hpre => h pre t (hpre.trans (List.prefix_append turns [turn]))

theorem Carry.init {turn : PipelineTurn (List UInt8 × Recovery)} (h : Carry S (turns ++ [turn])) :
    Carry S turns :=
  fun expired d hmem => h expired d (List.mem_append_left _ hmem)

/-- The handler in the run of the two threads follows the session. -/
theorem run_follows (hn : S.frames.length < 2 ^ 64 - 1) (hcarry : Carry S turns) :
    (runPipeline receiveDatagram turns).handler.Follows S ∧
      (runPipeline receiveDatagram turns).handler.tracker.ready = [] := by
  induction turns using List.reverseRecOn with
  | nil => exact ⟨FeedHandler.follows_start S, rfl⟩
  | append_singleton pre turn ih =>
    obtain ⟨hf, hready⟩ := ih hcarry.init
    rw [runPipeline_snoc]
    cases turn with
    | requestStop => exact ⟨hf, hready⟩
    | consumer =>
      show (PipelineState.stepLoop _).handler.Follows S ∧ (PipelineState.stepLoop _).handler.tracker.ready = []
      rw [(PipelineState.stepLoop_frame _).handler]
      exact ⟨hf, hready⟩
    | feed expired arrival =>
      show (PipelineState.stepFeed _ expired arrival _).handler.Follows S ∧
        (PipelineState.stepFeed _ expired arrival _).handler.tracker.ready = []
      rcases PipelineState.stepFeed_handler receiveDatagram expired arrival
        (runPipeline receiveDatagram pre) with hsame | ⟨d, rfl, hcall⟩
      · rw [hsame]
        exact ⟨hf, hready⟩
      · obtain ⟨hd, hrec⟩ := hcarry expired d (by simp)
        rw [hcall, receiveDatagram, FeedHandler.receive_eq]
        exact hf.processDatagram hready hn hd hrec

theorem run_balanced (hlossless : Lossless turns) : (runPipeline receiveDatagram turns).Balanced := by
  induction turns using List.reverseRecOn with
  | nil => rfl
  | append_singleton pre turn ih =>
    obtain ⟨hc, hready, -⟩ := run_thinned pre
    have hlinked : (runPipeline receiveDatagram pre).Linked := runPipeline_linked pre
    rw [runPipeline_snoc]
    exact hlinked.balanced_spares (ih hlossless.init)
      (fun a => (receiveDatagram_contained hc hready a).2.2) (hlossless pre turn (List.prefix_refl _))

/-- A list of turns as the beginning of a schedule. -/
theorem runPipeline_eq_runUntil (turns : List (PipelineTurn (List UInt8 × Recovery))) :
    runPipeline receiveDatagram turns
      = runUntil receiveDatagram (fun i => turns.getD i .consumer) turns.length := by
  unfold runUntil
  congr 1
  apply List.ext_getElem
  · simp
  · intro i hi _
    simp [hi]

theorem run_stop_behind (hown : PipelineTurn.requestStop ∉ turns)
    (hstop : (runPipeline receiveDatagram turns).stop = true) :
    (runPipeline receiveDatagram turns).Behind := by
  induction turns using List.reverseRecOn with
  | nil => cases hstop
  | append_singleton pre turn ih =>
    rw [List.mem_append, not_or, List.mem_singleton] at hown
    rw [runPipeline_snoc] at hstop ⊢
    exact PipelineState.behind_of_stop_step (ih hown.1) (fun h => hown.2 h.symm) hstop

/-- At the exit everything published has been handed to the consumers. -/
theorem run_handed (hown : PipelineTurn.requestStop ∉ turns) (hlossless : Lossless turns)
    (hexit : (runPipeline receiveDatagram turns).loop = .exited) :
    (runPipeline receiveDatagram turns).sinks
      = .after (runPipeline receiveDatagram turns).handler.published := by
  have hlinked : (runPipeline receiveDatagram turns).Linked := runPipeline_linked turns
  have hleft : (runPipeline receiveDatagram turns).loop.left = true := by
    rw [hexit]
    rfl
  have hpending := PipelineState.pending_of_behind
    (run_stop_behind hown (hlinked.loop.stopped (Or.inr hleft)))
  have hturns : ∀ i, turns.getD i .consumer ≠ .requestStop := by
    intro i hi
    rw [List.getD_eq_getElem?_getD] at hi
    cases hget : turns[i]? with
    | none =>
      rw [hget] at hi
      cases hi
    | some turn =>
      rw [hget] at hi
      exact hown (hi ▸ List.mem_of_getElem? hget)
  have hdrained : (runPipeline receiveDatagram turns).Drained := by
    rw [runPipeline_eq_runUntil]
    exact runUntil_drained hturns _
  have hbalanced : (runPipeline receiveDatagram turns).handler.published = _ := run_balanced hlossless
  rw [hpending, List.append_nil] at hbalanced
  rw [hdrained hleft, hbalanced]

/-- **The output of a run is a function of the session.** However the datagrams of a session arrive,
whatever becomes of the recovery attempts and however the two threads are scheduled: if the run ends at
its own deadline and `publish` gives up no event, then at the exit of the consumer thread the handler has
handled the first `k` frames of the session for some `k`, and the three files are those of handing the
events of these frames to the consumers one after the other. -/
theorem output_files_determined (S : Session) (hn : S.frames.length < 2 ^ 64 - 1) (T V : UInt64)
    (turns : List (PipelineTurn (List UInt8 × Recovery))) (hcarry : Carry S turns)
    (hown : PipelineTurn.requestStop ∉ turns) (hlossless : Lossless turns)
    (hexit : (runPipeline receiveDatagram turns).loop = .exited) :
    let s := runPipeline receiveDatagram turns
    ∃ k, k ≤ S.frames.length ∧ s.handler.tracker.stats.nextExpected.toNat = k + 1 ∧
      s.handler.toOutputs = Outputs.replay (S.frames.take k) ∧
      s.sinks.files T V = (Sinks.after (Outputs.replay (S.frames.take k)).published).files T V := by
  intro s
  obtain ⟨hf, hready⟩ := run_follows hn hcarry
  obtain ⟨hnext, hle, htake⟩ := hf.handled_eq hready hn
  have hreplay : s.handler.toOutputs = Outputs.replay (S.frames.take s.handler.handled.length) := by
    rw [hnext, Nat.add_sub_cancel_left] at htake
    rw [← htake]
    exact hf.outputs
  refine ⟨s.handler.handled.length, hle, by rw [hnext, Nat.add_comm], hreplay, ?_⟩
  have hhanded : s.sinks = .after s.handler.published := run_handed hown hlossless hexit
  rw [hhanded, congrArg Outputs.published hreplay]

/-- The session of that one trade. -/
def oneTradeSession : Session where
  frames := [firstTrade]
  whole := by decide +kernel
  seq := by decide +kernel

/-- A first try of a push is not the last one. -/
def firstTry : FeedPc → Bool
  | .publishing failed _ _ => failed == 0
  | .check | .receive | .leaving | .joining | .done => true

theorem lossless_of_firstTry
    (h : ∀ k, k < turns.length → firstTry (runPipeline receiveDatagram (turns.take k)).feed = true) :
    Lossless turns := by
  intro pre turn hpre
  have htake : pre = turns.take pre.length :=
    List.prefix_iff_eq_take.mp ((List.prefix_append pre [turn]).trans hpre)
  have hlen := hpre.length_le
  rw [List.length_append, List.length_singleton] at hlen
  have hfirst := h pre.length hlen
  rw [← htake] at hfirst
  cases turn with
  | consumer | requestStop => trivial
  | feed expired arrival =>
    rintro ⟨ev, later, pos, hfeed, -⟩
    rw [hfeed] at hfirst
    cases hfirst

theorem output_files_determined_one :
    ∃ k, (runPipeline receiveDatagram oneDatagram).sinks.files 1000 10
      = (Sinks.after (Outputs.replay (oneTradeSession.frames.take k)).published).files 1000 10 := by
  have hcarry : Carry oneTradeSession oneDatagram := by
    intro expired d hmem
    have hd : d = (firstTrade, .socketFailed) := by
      simp [oneDatagram] at hmem
      exact hmem.2
    subst hd
    exact ⟨Or.inl ⟨firstTrade, List.mem_singleton_self _, [], (List.append_nil _).symm⟩, trivial⟩
  have hown : PipelineTurn.requestStop ∉ oneDatagram := by simp [oneDatagram]
  obtain ⟨hexit, hfirst⟩ : (runPipeline receiveDatagram oneDatagram).loop = .exited ∧
      ∀ k, k < oneDatagram.length →
        firstTry (runPipeline receiveDatagram (oneDatagram.take k)).feed = true := by
    decide +kernel
  obtain ⟨k, -, -, -, hfiles⟩ := output_files_determined oneTradeSession (by decide) 1000 10 oneDatagram
    hcarry hown (lossless_of_firstTry hfirst) hexit
  exact ⟨k, hfiles⟩

end MarketDataPipeline.Feed
