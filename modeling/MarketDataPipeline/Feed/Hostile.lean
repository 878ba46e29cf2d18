/-
# MarketDataPipeline.Feed.Hostile — the handler under any input whatsoever.

Neither the feed nor the recovery server is trusted here: the datagrams are any bytes, and so is what an
attempt to recover brings.  No session is assumed, so two frames may carry the same number and differ.

What is left is that the handler works on frames it really received, one for each number from 1 on
(`Contained`): the tracker only ever holds whole messages, because both channels cut them out with
`parse_message` before they are pushed, and what it has let through is never taken back (`grows`).
-/
import MarketDataPipeline.Feed.Lossy
import MarketDataPipeline.Feed.Tape

namespace MarketDataPipeline.Feed

open MarketDataPipeline.Library.Framing
open MarketDataPipeline.Wire
open MarketDataPipeline.Sequence

/-! ## What was received -/

/-- The frame stands at the front of a datagram of the run, or somewhere in the bytes that a recovery
brought. -/
def Received (calls : List (List UInt8 × Recovery)) (f : List UInt8) : Prop :=
  ∃ c ∈ calls, f <+: c.1 ∨
    ∃ sentNs resp chunks latencyNs,
      c.2 = .answered sentNs resp chunks latencyNs ∧ f <:+: chunks.flatten

theorem Received.mono {calls calls' : List (List UInt8 × Recovery)} {f : List UInt8}
    (h : Received calls f) (hsub : calls ⊆ calls') : Received calls' f := by
  obtain ⟨c, hc, hf⟩ := h
  exact ⟨c, hsub hc, hf⟩

/-- A message that parses from the front of a datagram is a frame. -/
theorem isFrame_take {bytes : List UInt8} (hok : (parseMessage bytes).status = .ok) :
    IsFrame (bytes.take (parseMessage bytes).consumed) := by
  obtain ⟨-, -, hle⟩ := parseMessage_ok_bounds hok
  have hself := parseMessage_take_append hok []
  rw [List.append_nil] at hself
  refine ⟨by rw [hself]; exact hok, ?_⟩
  rw [hself, List.length_take, Nat.min_eq_left hle]

/-- The pieces that are cut from some bytes stand in these bytes. -/
theorem infix_of_splits {got : List UInt8} {pieces : List (List UInt8)}
    (h : Splits wireFrames got pieces) : ∀ p ∈ pieces, p <:+: got := fun _ hp =>
  (List.infix_of_mem_flatten hp).trans h.consecutive.isInfix

/-! ## The invariant -/

namespace FeedHandler

/-- All frames that the tracker has let through. -/
def appeared (h : FeedHandler) : List (List UInt8) := h.handled ++ h.tracker.ready

/-- What holds at every point of a call, for frames with a property `P`. -/
structure Contained (P : List UInt8 → Prop) (h : FeedHandler) : Prop where
  sound : TrackerRun.Sound (fun f => IsFrame f ∧ P f) ⟨h.tracker, h.handled⟩
  outputs : h.toOutputs = Outputs.replay h.handled
  gap : 1 + h.appeared.length < 2 ^ 64 → h.tracker.GapOk (2 ^ 64)
  requests : 1 + h.appeared.length < 2 ^ 64 → ∀ r ∈ h.requests, r.Ok (2 ^ 64)

variable {P : List UInt8 → Prop} {h : FeedHandler}

theorem contained_start (P : List UInt8 → Prop) : Contained P {} where
  sound := TrackerRun.sound_init _
  outputs := rfl
  gap := fun _ hpend => absurd rfl hpend
  requests := fun _ _ hr => absurd hr List.not_mem_nil

theorem Contained.mono {Q : List UInt8 → Prop} (hc : h.Contained P) (hPQ : ∀ f, P f → Q f) :
    h.Contained Q := by
  refine ⟨⟨?_, hc.sound.numbered, hc.sound.nextExpected, ?_⟩, hc.outputs, hc.gap, hc.requests⟩
  · intro i hi
    obtain ⟨h20, h44, hslot, hlo, hframe, hP⟩ := hc.sound.settled i hi
    exact ⟨h20, h44, hslot, hlo, hframe, hPQ _ hP⟩
  · intro f hf
    obtain ⟨hframe, hP⟩ := hc.sound.sound f hf
    exact ⟨hframe, hPQ f hP⟩

theorem next_of_sound (hs : TrackerRun.Sound P ⟨h.tracker, h.handled⟩)
    (hsmall : 1 + h.appeared.length < 2 ^ 64) :
    h.tracker.stats.nextExpected.toNat = 1 + h.appeared.length := by
  rw [show h.tracker.stats.nextExpected = _ from hs.nextExpected]
  exact toNat_ofNat_of_lt hsmall

/-- Pushing a frame: what was let through stays, and more may follow. -/
theorem Contained.push (hc : h.Contained P) {f : List UInt8} (hframe : IsFrame f) (hP : P f) :
    Contained P { h with tracker := (h.tracker.push f).1 } ∧
      h.appeared <+: appeared { h with tracker := (h.tracker.push f).1 } := by
  let r : TrackerRun := ⟨h.tracker, h.handled⟩
  obtain ⟨out, hd⟩ : ∃ out, SequenceTracker.Delivers (fun f => IsFrame f ∧ P f) r.tracker
      (r.tracker.push f).1 out :=
    SequenceTracker.push_delivers hc.sound.settled (fun _ _ => ⟨hframe, hP⟩)
  have hsound := hc.sound.push ⟨hframe, hP⟩
  have hgrow : appeared { h with tracker := (h.tracker.push f).1 } = h.appeared ++ out :=
    TrackerRun.appeared_push hd
  have hlen := congrArg List.length hgrow
  rw [List.length_append] at hlen
  refine ⟨⟨hsound, hc.outputs, ?_, fun hsmall => hc.requests (by omega)⟩, ⟨out, hgrow.symm⟩⟩
  intro hsmall
  apply SequenceTracker.push_gapOk (hc.gap (by omega)) (UInt64.toNat_lt _).le
  -- short of the wrap the counter is a length, and lengths grow
  rw [next_of_sound hc.sound (by omega)]
  refine le_of_le_of_eq ?_ (next_of_sound hsound hsmall).symm
  omega

/-- Pushing frame after frame. -/
theorem Contained.pushes (hc : h.Contained P) {frames : List (List UInt8)}
    (hall : ∀ f ∈ frames, IsFrame f ∧ P f) :
    let h' := { h with tracker := frames.foldl (fun t f => (t.push f).1) h.tracker }
    Contained P h' ∧ h.appeared <+: h'.appeared := by
  induction frames generalizing h with
  | nil => exact ⟨hc, List.prefix_rfl⟩
  | cons f frames ih =>
    obtain ⟨hframe, hP⟩ := hall f List.mem_cons_self
    obtain ⟨hpush, hgrow⟩ := hc.push hframe hP
    obtain ⟨hrest, hgrow'⟩ := ih hpush fun g hg => hall g (List.mem_cons_of_mem _ hg)
    exact ⟨hrest, hgrow.trans hgrow'⟩

theorem Contained.sendRequest (hc : h.Contained P) (hpend : h.tracker.gapPending = true)
    (sentNs : UInt64) : (h.sendRequest sentNs).Contained P := by
  refine ⟨hc.sound, hc.outputs, hc.gap, ?_⟩
  intro hsmall r hr
  rcases List.mem_append.mp hr with hr | hr
  · exact hc.requests hsmall r hr
  · rw [List.mem_singleton] at hr
    subst hr
    unfold SentRequest.Ok SentRequest.start SentRequest.stop encodeGapRequest
    rw [loadBe64_storeBe64, loadBe64_storeBe64]
    exact hc.gap hsmall (SequenceTracker.gapPending_iff.mp hpend)

/-- What an attempt to recover may bring has the property. -/
def Brings (P : List UInt8 → Prop) : Recovery → Prop
  | .answered _ _ chunks _ => ∀ f, f <:+: chunks.flatten → P f
  | _ => True

theorem Contained.tryRecover (hc : h.Contained P) {rec : Recovery} (hrec : Brings P rec) :
    (h.tryRecover rec).Contained P ∧ h.appeared <+: (h.tryRecover rec).appeared := by
  rcases tryRecover_cases h rec with ⟨-, heq⟩ | ⟨hpend, heq | ⟨sentNs, heq⟩ | hans⟩
  · rw [heq]
    exact ⟨hc, List.prefix_rfl⟩
  · rw [heq]
    exact ⟨hc, List.prefix_rfl⟩
  · rw [heq]
    exact ⟨hc.sendRequest hpend sentNs, List.prefix_rfl⟩
  · obtain ⟨sentNs, resp, chunks, latencyNs, rfl, heq⟩ := hans
    obtain ⟨pieces, hsplit⟩ := exists_splits (F := wireFrames) (payloadOf resp chunks)
    have hpieces : ∀ p ∈ pieces, IsFrame p ∧ P p := by
      intro p hp
      have hgot : payloadOf resp chunks <+: chunks.flatten := receivePayload_prefix _ chunks []
      exact ⟨whole_iff.mp (hsplit.whole p hp),
        hrec p ((infix_of_splits hsplit p hp).trans hgot.isInfix)⟩
    obtain ⟨hpushed, hgrow⟩ := (hc.sendRequest hpend sentNs).pushes hpieces
    rw [heq, pushPayload_eq hsplit]
    exact ⟨⟨⟨hpushed.sound.settled, hpushed.sound.numbered, hpushed.sound.nextExpected,
      hpushed.sound.sound⟩, hpushed.outputs, fun _ hnone => absurd rfl hnone, hpushed.requests⟩, hgrow⟩

theorem Contained.drain (hc : h.Contained P) :
    h.drain.Contained P ∧ h.drain.tracker.ready = [] ∧ h.drain.handled = h.appeared := by
  have hwhole : ∀ f ∈ h.tracker.ready, IsFrame f := fun f hf =>
    (hc.sound.sound f (List.mem_append_right _ hf)).1
  have happ : appeared h.drain = h.appeared := by
    rw [FeedHandler.drain_eq hwhole]
    exact List.append_nil _
  have hstep := TrackerRun.sound_step hc.sound .clearReady (fun _ hop => by cases hop)
  rw [FeedHandler.drain_eq hwhole, hc.outputs, ← Outputs.replay_append] at *
  refine ⟨⟨hstep, rfl, ?_, ?_⟩, rfl, rfl⟩
  · rw [happ]
    exact hc.gap
  · rw [happ]
    exact hc.requests

/-- **One call of `process_datagram`**, whatever it is given. -/
theorem Contained.processDatagram (hc : h.Contained P) (hready : h.tracker.ready = [])
    {bytes : List UInt8} {rec : Recovery} (hbytes : ∀ f, f <+: bytes → P f) (hrec : Brings P rec) :
    let h' := h.processDatagram bytes rec
    h'.Contained P ∧ h'.tracker.ready = [] ∧ h.handled <+: h'.handled := by
  intro h'
  by_cases hok : (parseMessage bytes).status = .ok
  · obtain ⟨hpush, hgrow⟩ := hc.push (isFrame_take hok) (hbytes _ (List.take_prefix _ _))
    obtain ⟨hrecovered, hgrow'⟩ := hpush.tryRecover hrec
    obtain ⟨hdrained, hempty, hhandled⟩ := hrecovered.drain
    have heq : h' = (FeedHandler.tryRecover { h with
        tracker := (h.tracker.push (bytes.take (parseMessage bytes).consumed)).1 } rec).drain :=
      processDatagram_accepted rec hok
    rw [heq]
    refine ⟨hdrained, hempty, ?_⟩
    have hstart : h.appeared = h.handled := by
      unfold appeared
      rw [hready, List.append_nil]
    have hall := hgrow.trans hgrow'
    rw [hstart] at hall
    rw [hhandled]
    exact hall
  · have heq : h' = h := processDatagram_rejected rec hok
    rw [heq]
    exact ⟨hc, hready, List.prefix_rfl⟩

end FeedHandler

/-! ## Runs -/

theorem Outputs.published_prefix {a b : List (List UInt8)} (h : a <+: b) :
    (replay a).published <+: (replay b).published := by
  obtain ⟨t, rfl⟩ := h
  induction t using List.reverseRecOn with
  | nil =>
    rw [List.append_nil]
  | append_singleton t f ih =>
    rw [← List.append_assoc, Outputs.replay_snoc]
    exact ih.trans (FeedHandler.handleParsed_published _ _)

theorem brings_received {calls : List (List UInt8 × Recovery)} {c : List UInt8 × Recovery}
    (hc : c ∈ calls) : FeedHandler.Brings (Received calls) c.2 := by
  obtain ⟨bytes, rec⟩ := c
  cases rec with
  | socketFailed | connectFailed | sendFailed sentNs | headerFailed sentNs => trivial
  | answered sentNs resp chunks latencyNs =>
    intro f hf
    exact ⟨_, hc, Or.inr ⟨sentNs, resp, chunks, latencyNs, rfl, hf⟩⟩

theorem runCalls_contained (calls : List (List UInt8 × Recovery)) :
    (runCalls calls).Contained (Received calls) ∧ (runCalls calls).tracker.ready = [] ∧
      ∀ pre, pre <+: calls → (runCalls pre).handled <+: (runCalls calls).handled := by
  induction calls using List.reverseRecOn with
  | nil =>
    refine ⟨FeedHandler.contained_start _, rfl, fun pre hpre => ?_⟩
    rw [List.prefix_nil.mp hpre]
  | append_singleton calls c ih =>
    obtain ⟨hc, hready, hgrows⟩ := ih
    have hmem : c ∈ calls ++ [c] := by simp
    have hwider := hc.mono fun f hf => hf.mono (List.subset_append_left calls [c])
    obtain ⟨hcall, hempty, hgrow⟩ := hwider.processDatagram hready
      (fun f hf => ⟨c, hmem, Or.inl hf⟩) (brings_received hmem)
    rw [← runCalls_snoc] at hcall hempty hgrow
    refine ⟨hcall, hempty, fun pre hpre => ?_⟩
    rcases List.prefix_concat_iff.mp hpre with rfl | hold
    · exact List.prefix_rfl
    · exact (hgrows pre hold).trans hgrow

/-- **No input gets past the tracker.** Whatever bytes arrive as datagrams and whatever the recovery
channel brings, the handler has handled one frame for each of the numbers 1, 2, 3, …; each of them is
a whole message that was received, byte for byte; the book, the events and the message counter are
those of handling these frames in order; nothing that was handled or published is taken back later;
and every request ever sent asks for a range around `next_expected`. -/
theorem hostile_feed_contained (calls : List (List UInt8 × Recovery))
    (hlen : 1 + (runCalls calls).handled.length < 2 ^ 64) :
    let h := runCalls calls
    h.handled.map (fun f => (frameSeq f).toNat) = List.range' 1 h.handled.length ∧
      h.tracker.stats.nextExpected.toNat = 1 + h.handled.length ∧
      (∀ f ∈ h.handled, IsFrame f ∧ Received calls f) ∧
      h.toOutputs = Outputs.replay h.handled ∧
      (∀ pre, pre <+: calls → (runCalls pre).handled <+: h.handled ∧
        (runCalls pre).published <+: h.published) ∧
      ∀ r ∈ h.requests, r.start.toNat ≤ r.nextExpected.toNat ∧ r.nextExpected.toNat ≤ r.stop.toNat := by
  intro h
  obtain ⟨hc, hready, hgrows⟩ := runCalls_contained calls
  have happ : h.appeared = h.handled := by
    unfold FeedHandler.appeared
    rw [hready, List.append_nil]
  have hnum : Numbered 1 h.handled := happ ▸ hc.sound.numbered
  have hsmall : 1 + h.appeared.length < 2 ^ 64 := by rw [happ]; exact hlen
  refine ⟨numbered_toNat (s := 1) hnum hlen.le, ?_, ?_, hc.outputs, ?_, ?_⟩
  · rw [FeedHandler.next_of_sound hc.sound hsmall, happ]
  · intro f hf
    exact hc.sound.sound f (List.mem_append_left _ hf)
  · intro pre hpre
    refine ⟨hgrows pre hpre, ?_⟩
    have hout : h.published = (Outputs.replay h.handled).published :=
      congrArg Outputs.published hc.outputs
    rw [hout, congrArg Outputs.published (runCalls_contained pre).1.outputs]
    exact Outputs.published_prefix (hgrows pre hpre)
  · intro r hr
    obtain ⟨hstart, hstop, -⟩ := hc.requests hsmall r hr
    exact ⟨hstart, hstop⟩

/-- Two frames with number 2 and different contents, one of them from the recovery channel with a byte
of noise behind it: the one that is in the window stays. -/
def forgedCalls : List (List UInt8 × Recovery) :=
  let forged := (EncodeCall.heartbeat {} 2 99 99).bytes ++ [255]
  [(sampleSession.frames.getD 1 [], .answered 40 (encodeGapResponse {} 0 41 1 1 29) [forged] 6),
    (sampleSession.frames.getD 0 [], .connectFailed)]

theorem hostile_feed_contained_forged :
    (runCalls forgedCalls).handled = sampleSession.frames.take 2 ∧
      ∀ f ∈ sampleSession.frames.take 2, Received forgedCalls f := by
  have hhandled : (runCalls forgedCalls).handled = sampleSession.frames.take 2 := by
    decide +kernel
  have hlen : 1 + (runCalls forgedCalls).handled.length < 2 ^ 64 := by
    rw [hhandled]
    decide
  obtain ⟨-, -, hreceived, -⟩ := hostile_feed_contained forgedCalls hlen
  refine ⟨hhandled, fun f hf => (hreceived f ?_).2⟩
  rw [hhandled]
  exact hf

end MarketDataPipeline.Feed
