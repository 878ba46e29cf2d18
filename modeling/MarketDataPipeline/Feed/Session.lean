/-
# MarketDataPipeline.Feed.Session — the handler follows a prefix of the session.

A session is the list of frames the exchange sends, numbered from 1.  The datagrams that reach the
handler are these frames in any order, with any of them missing or repeated, between datagrams that do
not parse; a recovery attempt may fail at any point or bring frames of the session.

The frames that have been handled, followed by those in `ready()`, are a sound run of the tracker
(`TrackerRun.Sound`, with "is a frame of the session" for the predicate).  So they are numbered
`1, 2, 3, …`, and since a number belongs to one frame only they are a prefix of the session
(`Session.eq_take`).  The rest is that the book, the events and the counter depend on the handled
frames alone.
-/
import MarketDataPipeline.Feed.Handler

namespace MarketDataPipeline.Feed

open MarketDataPipeline.Library.Framing
open MarketDataPipeline.Wire
open MarketDataPipeline.Sequence

/-! ## Sessions -/

/-- A list of whole messages with the numbers `1, 2, 3, …` in their headers. -/
structure Session where
  frames : List (List UInt8)
  whole : ∀ f ∈ frames, IsFrame f
  seq : ∀ i (hi : i < frames.length),
    (messageHeader (parseMessage frames[i])).map (fun hdr => hdr.seq.toNat) = some (i + 1)

namespace Session

variable (S : Session)

/-- The frames numbered `lo, …, hi`. -/
def range (lo hi : Nat) : List (List UInt8) := (S.frames.drop (lo - 1)).take (hi + 1 - lo)

/-- A datagram of the feed: a frame of the session with anything behind it, or bytes that
`parse_message` rejects. -/
def Datagram (bytes : List UInt8) : Prop :=
  (∃ f ∈ S.frames, ∃ trail, bytes = f ++ trail) ∨ (parseMessage bytes).status ≠ .ok

variable {S}

theorem frameSeq_getElem {i : Nat} (hi : i < S.frames.length) :
    (frameSeq S.frames[i]).toNat = i + 1 := by
  have hseq := S.seq i hi
  rw [parseMessage_ok_header (S.whole _ (List.getElem_mem hi)).1] at hseq
  obtain ⟨hdr, hhdr, hval⟩ := Option.map_eq_some_iff.mp hseq
  rw [frameSeq_eq hhdr]
  exact hval

theorem frameSeq_le {f : List UInt8} (hf : f ∈ S.frames) :
    1 ≤ (frameSeq f).toNat ∧ (frameSeq f).toNat ≤ S.frames.length := by
  obtain ⟨i, hi, rfl⟩ := List.mem_iff_getElem.mp hf
  rw [frameSeq_getElem hi]
  omega

theorem seq_le : ∀ f, f ∈ S.frames → (frameSeq f).toNat ≤ S.frames.length :=
  fun _ hf => (frameSeq_le hf).2

/-- A number belongs to one frame of the session. -/
theorem eq_getElem {f : List UInt8} (hf : f ∈ S.frames) {i : Nat} (hi : i < S.frames.length)
    (hseq : (frameSeq f).toNat = i + 1) : f = S.frames[i] := by
  obtain ⟨j, hj, rfl⟩ := List.mem_iff_getElem.mp hf
  rw [frameSeq_getElem hj] at hseq
  obtain rfl : j = i := by omega
  rfl

theorem frame_size {f : List UInt8} (hf : f ∈ S.frames) : 20 ≤ f.length ∧ f.length ≤ 44 := by
  obtain ⟨hok, hlen⟩ := S.whole f hf
  have hbounds := parseMessage_ok_bounds hok
  omega

/-- **Frames of the session numbered from 1 are a prefix of the session.** -/
theorem eq_take {fs : List (List UInt8)} (hnum : Numbered 1 fs) (hmem : ∀ f ∈ fs, f ∈ S.frames)
    (hn : S.frames.length < 2 ^ 64 - 1) : fs = S.frames.take fs.length := by
  have hlen : fs.length ≤ S.frames.length :=
    numbered_length_le hnum hn fun f hf => seq_le f (hmem f hf)
  apply List.ext_getElem
  · rw [List.length_take, Nat.min_eq_left hlen]
  · intro i h1 h2
    rw [List.getElem_take]
    apply eq_getElem (hmem _ (List.getElem_mem h1))
    have hseq := numbered_getElem (s := 1) hnum (by omega) i h1
    omega

/-- A datagram that parses carries a frame of the session. -/
theorem Datagram.frame {bytes : List UInt8} (hd : S.Datagram bytes)
    (hok : (parseMessage bytes).status = .ok) :
    bytes.take (parseMessage bytes).consumed ∈ S.frames := by
  rcases hd with ⟨f, hf, trail, rfl⟩ | hbad
  · obtain ⟨hfok, hlen⟩ := S.whole f hf
    have hparse : parseMessage (f ++ trail) = parseMessage f :=
      parseMessage_append (by rw [hfok]; decide) trail
    rw [hparse, hlen, List.take_left]
    exact hf
  · exact absurd hok hbad

theorem range_subset {lo hi : Nat} : ∀ f ∈ S.range lo hi, f ∈ S.frames := fun _ hf =>
  List.mem_of_mem_drop (List.mem_of_mem_take hf)

theorem range_whole {lo hi : Nat} : ∀ f ∈ S.range lo hi, wireFrames.Whole f := fun f hf =>
  whole_iff.mpr (S.whole f (range_subset f hf))

end Session

/-! ## Recovery outcomes and runs -/

namespace Recovery

/-- The attempt fails, or the bytes that arrive are a prefix of the requested frames.  The request is
for the gap of the given tracker. -/
def Serves (S : Session) (t : SequenceTracker) : Recovery → Prop
  | .answered _ resp chunks _ =>
    payloadOf resp chunks <+: (S.range t.gapStart.toNat t.gapEnd.toNat).flatten
  | _ => True

/-- The attempt fails, or whatever frames can be cut from the bytes that arrive are frames of the
session: any of them, in any order, and anything that does not parse behind them. -/
def FromSession (S : Session) : Recovery → Prop
  | .answered _ resp chunks _ =>
    ∃ pieces, Splits wireFrames (payloadOf resp chunks) pieces ∧ ∀ p ∈ pieces, p ∈ S.frames
  | _ => True

variable {S : Session} {t : SequenceTracker} {rec : Recovery}

theorem Serves.fromSession (h : rec.Serves S t) : rec.FromSession S := by
  cases rec with
  | socketFailed | connectFailed | sendFailed sentNs | headerFailed sentNs => trivial
  | answered sentNs resp chunks latencyNs =>
    obtain ⟨k, -, -, -, hsplit⟩ := splits_of_prefix Session.range_whole h
    exact ⟨_, hsplit, fun p hp => Session.range_subset p (List.mem_of_mem_take hp)⟩

end Recovery

/-- The states that calls of `process_datagram` can lead to from a fresh handler, when every call is
one that `ok` allows in the state it is made in. -/
inductive Reachable (ok : FeedHandler → List UInt8 → Recovery → Prop) : FeedHandler → Prop where
  | start : Reachable ok {}
  | call {h : FeedHandler} {bytes : List UInt8} {rec : Recovery} : Reachable ok h → ok h bytes rec →
      Reachable ok (h.processDatagram bytes rec)

/-! ## The invariant -/

/-- The request is for a range around `next_expected` that ends before the last frame. -/
def SentRequest.Ok (n : Nat) (r : SentRequest) : Prop :=
  r.start.toNat ≤ r.nextExpected.toNat ∧ r.nextExpected.toNat ≤ r.stop.toNat ∧ r.stop.toNat + 1 ≤ n

namespace FeedHandler

/-- What holds at every point of a call. -/
structure Follows (S : Session) (h : FeedHandler) : Prop where
  sound : TrackerRun.Sound (fun f => f ∈ S.frames) ⟨h.tracker, h.handled⟩
  gap : h.tracker.GapOk S.frames.length
  outputs : h.toOutputs = Outputs.replay h.handled
  requests : ∀ r ∈ h.requests, r.Ok S.frames.length

variable {S : Session} {h : FeedHandler}

theorem follows_start (S : Session) : Follows S {} where
  sound := TrackerRun.sound_init _
  gap := fun hpend => absurd rfl hpend
  outputs := rfl
  requests := fun _ hr => absurd hr List.not_mem_nil

/-- The counter, as a number. -/
theorem Follows.next (hf : h.Follows S) (hn : S.frames.length < 2 ^ 64 - 1) :
    h.handled.length + h.tracker.ready.length ≤ S.frames.length ∧
      h.tracker.stats.nextExpected.toNat
        = 1 + (h.handled.length + h.tracker.ready.length) := by
  have hnext := hf.sound.next_toNat Session.seq_le hn
  unfold TrackerRun.appeared at hnext
  rw [List.length_append] at hnext
  exact hnext

/-- Pushing a frame of the session. -/
theorem Follows.push (hf : h.Follows S) (hn : S.frames.length < 2 ^ 64 - 1) {f : List UInt8}
    (hmem : f ∈ S.frames) : Follows S { h with tracker := (h.tracker.push f).1 } := by
  refine ⟨hf.sound.push hmem, ?_, hf.outputs, hf.requests⟩
  apply SequenceTracker.push_gapOk hf.gap (Session.seq_le f hmem)
  exact hf.sound.push_mono Session.seq_le hn hmem

/-- Pushing frame after frame. -/
theorem Follows.pushes (hf : h.Follows S) (hn : S.frames.length < 2 ^ 64 - 1)
    {frames : List (List UInt8)} (hmem : ∀ f ∈ frames, f ∈ S.frames) :
    Follows S { h with tracker := frames.foldl (fun t f => (t.push f).1) h.tracker } := by
  induction frames generalizing h with
  | nil => exact hf
  | cons f frames ih =>
    exact ih (hf.push hn (hmem f (List.mem_cons_self ..)))
      (fun g hg => hmem g (List.mem_cons_of_mem _ hg))

/-- A request that is sent asks for the pending gap. -/
theorem Follows.sendRequest (hf : h.Follows S) (hpend : h.tracker.gapPending = true)
    (sentNs : UInt64) : (h.sendRequest sentNs).Follows S := by
  refine ⟨hf.sound, hf.gap, hf.outputs, ?_⟩
  intro r hr
  rcases List.mem_append.mp hr with hr | hr
  · exact hf.requests r hr
  · rw [List.mem_singleton] at hr
    subst hr
    unfold SentRequest.Ok SentRequest.start SentRequest.stop encodeGapRequest
    rw [loadBe64_storeBe64, loadBe64_storeBe64]
    exact hf.gap (SequenceTracker.gapPending_iff.mp hpend)

theorem Follows.tryRecover (hf : h.Follows S) (hn : S.frames.length < 2 ^ 64 - 1) {rec : Recovery}
    (hrec : rec.FromSession S) : (h.tryRecover rec).Follows S := by
  rcases tryRecover_cases h rec with ⟨-, heq⟩ | ⟨hpend, heq | ⟨sentNs, heq⟩ | hans⟩
  · rw [heq]
    exact hf
  · rw [heq]
    exact hf
  · rw [heq]
    exact hf.sendRequest hpend sentNs
  · obtain ⟨sentNs, resp, chunks, latencyNs, rfl, heq⟩ := hans
    obtain ⟨pieces, hsplit, hmem⟩ := hrec
    rw [heq, pushPayload_eq hsplit]
    have hpushed := (hf.sendRequest hpend sentNs).pushes hn hmem
    -- the bookkeeping at the end touches the statistics and clears the gap
    exact ⟨⟨hpushed.sound.settled, hpushed.sound.numbered, hpushed.sound.nextExpected,
      hpushed.sound.sound⟩, fun hpend => absurd rfl hpend, hpushed.outputs, hpushed.requests⟩

/-- The loop over `ready()` moves its frames to the handled ones. -/
theorem Follows.drain_eq (hf : h.Follows S) :
    h.drain =
      { h with
        toOutputs := Outputs.replay (h.handled ++ h.tracker.ready)
        handled := h.handled ++ h.tracker.ready
        tracker := h.tracker.clearReady } := by
  have hwhole : ∀ f ∈ h.tracker.ready, IsFrame f := fun f hmem =>
    S.whole f (hf.sound.sound f (List.mem_append_right _ hmem))
  rw [FeedHandler.drain_eq hwhole, Outputs.replay_append, ← hf.outputs]

theorem Follows.drain (hf : h.Follows S) :
    h.drain.Follows S ∧ h.drain.tracker.ready = [] := by
  rw [hf.drain_eq]
  have hstep := TrackerRun.sound_step hf.sound .clearReady (fun _ hop => by cases hop)
  exact ⟨⟨hstep, hf.gap, rfl, hf.requests⟩, rfl⟩

/-- **One call of `process_datagram`.** -/
theorem Follows.processDatagram (hf : h.Follows S) (hready : h.tracker.ready = [])
    (hn : S.frames.length < 2 ^ 64 - 1) {bytes : List UInt8} {rec : Recovery}
    (hd : S.Datagram bytes) (hrec : rec.FromSession S) :
    (h.processDatagram bytes rec).Follows S ∧
      (h.processDatagram bytes rec).tracker.ready = [] := by
  by_cases hok : (parseMessage bytes).status = .ok
  · rw [processDatagram_accepted rec hok]
    exact ((hf.push hn (hd.frame hok)).tryRecover hn hrec).drain
  · rw [processDatagram_rejected rec hok]
    exact ⟨hf, hready⟩

end FeedHandler

/-! ## Runs -/

theorem reachable_follows {S : Session} {ok : FeedHandler → List UInt8 → Recovery → Prop}
    (hok : ∀ h bytes rec, ok h bytes rec → S.Datagram bytes ∧ rec.FromSession S)
    (hn : S.frames.length < 2 ^ 64 - 1) {h : FeedHandler} (hr : Reachable ok h) :
    h.Follows S ∧ h.tracker.ready = [] := by
  induction hr with
  | start => exact ⟨FeedHandler.follows_start S, rfl⟩
  | call _ hcall ih =>
    obtain ⟨hd, hrec⟩ := hok _ _ _ hcall
    exact ih.1.processDatagram ih.2 hn hd hrec

/-- Between calls, the frames handled so far are those below `next_expected`. -/
theorem FeedHandler.Follows.handled_eq {S : Session} {h : FeedHandler} (hf : h.Follows S)
    (hready : h.tracker.ready = []) (hn : S.frames.length < 2 ^ 64 - 1) :
    h.tracker.stats.nextExpected.toNat = 1 + h.handled.length ∧ h.handled.length ≤ S.frames.length ∧
      h.handled = S.frames.take (h.tracker.stats.nextExpected.toNat - 1) := by
  obtain ⟨hle, hnext⟩ := hf.next hn
  rw [hready, List.length_nil, Nat.add_zero] at hle hnext
  refine ⟨hnext, hle, ?_⟩
  have happ : TrackerRun.appeared ⟨h.tracker, h.handled⟩ = h.handled := by
    unfold TrackerRun.appeared
    rw [hready, List.append_nil]
  have hnum := hf.sound.numbered
  have hmem := hf.sound.sound
  rw [happ] at hnum hmem
  rw [hnext, Nat.add_sub_cancel_left]
  exact Session.eq_take hnum hmem hn

/-- **Prefix consistency.** After every call, whatever order the frames arrived in, whichever were lost
or repeated and however the recovery attempts went, the book, the events handed to `publish` and the
message counter are those of handling the frames below `next_expected` once each, in order. -/
theorem feed_prefix_consistency (S : Session) (hn : S.frames.length < 2 ^ 64 - 1) (h : FeedHandler)
    (hr : Reachable (fun h bytes rec => S.Datagram bytes ∧ rec.Serves S (h.afterPush bytes)) h) :
    1 ≤ h.tracker.stats.nextExpected.toNat ∧
      h.tracker.stats.nextExpected.toNat ≤ S.frames.length + 1 ∧
      h.toOutputs = Outputs.replay (S.frames.take (h.tracker.stats.nextExpected.toNat - 1)) := by
  obtain ⟨hf, hready⟩ := reachable_follows
    (fun h bytes rec hcall => ⟨hcall.1, hcall.2.fromSession⟩) hn hr
  obtain ⟨hnext, hle, htake⟩ := hf.handled_eq hready hn
  refine ⟨by omega, by omega, ?_⟩
  rw [← htake]
  exact hf.outputs

/-- An order, a trade and a heartbeat. -/
def sampleCalls : List EncodeCall :=
  [.add {} 1 10 7 0 .buy 100 5, .trade {} 2 20 9 0 .sell 100 3, .heartbeat {} 3 30 30]

def sampleSession : Session where
  frames := sampleCalls.map EncodeCall.bytes
  whole := by decide +kernel
  seq := by decide +kernel

/-- The bytes of frame 1 and the first five of frame 2, in two chunks. -/
def sampleAnswer : Recovery :=
  let bytes := sampleSession.frames.flatten
  .answered 40 (encodeGapResponse {} 0 41 1 2 88) [bytes.take 10, (bytes.drop 10).take 39] 6

/-- Frame 2 comes first and its recovery fails; frame 3 has a byte too many behind it and its recovery
breaks off after five bytes of frame 2. -/
theorem feed_prefix_consistency_cut :
    let frames := sampleSession.frames
    let first := FeedHandler.processDatagram {} (frames.getD 1 []) .connectFailed
    let second := first.processDatagram (frames.getD 2 [] ++ [0]) sampleAnswer
    second.tracker.stats.nextExpected = 4 ∧ second.toOutputs = Outputs.replay frames := by
  intro frames first second
  have hreach : Reachable (fun h bytes rec => sampleSession.Datagram bytes ∧
      rec.Serves sampleSession (h.afterPush bytes)) second := by
    refine .call (.call .start ⟨Or.inl ⟨frames.getD 1 [], ?_, [], ?_⟩, trivial⟩)
      ⟨Or.inl ⟨frames.getD 2 [], ?_, [0], rfl⟩, ?_⟩
    · decide +kernel
    · rw [List.append_nil]
    · decide +kernel
    · show payloadOf _ _ <+: _
      rw [List.prefix_iff_eq_take]
      decide +kernel
  have hnext : second.tracker.stats.nextExpected = 4 := by decide +kernel
  have h := (feed_prefix_consistency sampleSession (by decide) second hreach).2.2
  rw [hnext] at h
  exact ⟨hnext, h⟩

end MarketDataPipeline.Feed
