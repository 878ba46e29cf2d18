/-
# MarketDataPipeline.Feed.Exchange — the recovery channel, from end to end.

`try_recover` and `run_recovery_server` talk over a stream of bytes: a request of 36 bytes one way, a
header of 44 bytes and the payload the other way.  `serveConnection` is what the server sends on one
connection, given what arrives there, and `Recovery.Exchange` says which outcomes the handler can see
with that server at the other end.  The connection may break after any byte in both directions, and
the stream may come in any pieces.

The server announces the length of its payload in 32 bits.  A payload of `2^32` bytes or more is
announced modulo `2^32`, and then the handler stops reading early; what it has read is still a prefix
of the requested frames, so this is a recovery that breaks off and nothing worse (`Exchange.serves`).
-/
import MarketDataPipeline.Feed.Server

namespace MarketDataPipeline.Feed

open MarketDataPipeline.Library.Framing
open MarketDataPipeline.Library.Loop
open MarketDataPipeline.Wire
open MarketDataPipeline.Sequence

/-! ## One connection -/

/-- The request that `try_recover` sends for the pending gap. -/
def requestBytes (t : SequenceTracker) (sentNs : UInt64) : List UInt8 :=
  WireGapRequest.image.put (encodeGapRequest {} 0 sentNs t.gapStart t.gapEnd)

/-- What `run_recovery_server` sends on a connection, given what it receives there; `none` if its loop
has not left after so many passes. -/
def serveConnection (session : List (List UInt8)) (nowNs : UInt64) (passes : Nat)
    (received : List UInt8) : Option (List UInt8) :=
  -- `MSG_WAITALL`: the whole struct, or less if the client is gone
  match copyOut WireGapRequest.image (received.take WireGapRequest.image.size) with
  | none => some []
  | some req =>
    (servePayload session req passes).map fun payload =>
      WireGapResponse.image.put (serveHeader req nowNs payload) ++ payload

/-- The outcomes of an attempt with the server of `session` at the other end. -/
inductive Recovery.Exchange (session : List (List UInt8)) (t : SequenceTracker) : Recovery → Prop
  | socketFailed : Exchange session t .socketFailed
  | connectFailed : Exchange session t .connectFailed
  | sendFailed (sentNs : UInt64) : Exchange session t (.sendFailed sentNs)
  | headerFailed (sentNs : UInt64) : Exchange session t (.headerFailed sentNs)
  | answered {sentNs nowNs latencyNs : UInt64} {passes : Nat} {received reply : List UInt8}
      {resp : WireGapResponse} {chunks : List (List UInt8)}
      (request : received <+: requestBytes t sentNs)
      (served : serveConnection session nowNs passes received = some reply)
      (stream : WireGapResponse.image.put resp ++ chunks.flatten <+: reply) :
      Exchange session t (.answered sentNs resp chunks latencyNs)

/-- The attempt succeeds: the request and the whole reply get through, in pieces that are not empty. -/
def Recovery.Unbroken (session : List (List UInt8)) (t : SequenceTracker) : Recovery → Prop
  | .answered sentNs resp chunks _ =>
    ∃ nowNs passes, serveConnection session nowNs passes (requestBytes t sentNs)
        = some (WireGapResponse.image.put resp ++ chunks.flatten) ∧
      ∀ c ∈ chunks, c ≠ []
  | _ => False

/-! ## What the client gets -/

/-- What `recv` brings is a prefix of the stream. -/
theorem receivePayload_prefix (nbytes : Nat) (chunks : List (List UInt8)) (got : List UInt8) :
    receivePayload nbytes got chunks <+: got ++ chunks.flatten := by
  induction chunks generalizing got with
  | nil =>
    rw [List.flatten_nil, List.append_nil]
    exact List.prefix_rfl
  | cons chunk rest ih =>
    show (if got.length < nbytes then _ else _) <+: _
    split_ifs with hmore hnone
    · exact List.prefix_append _ _
    · by_cases hall : chunk.length ≤ nbytes - got.length
      · rw [List.take_of_length_le hall, List.flatten_cons, ← List.append_assoc]
        exact ih _
      · -- the vector is full now, and no further call is made
        have hfull : (got ++ chunk.take (nbytes - got.length)).length = nbytes := by
          rw [List.length_append, List.length_take]
          omega
        have hstop : receivePayload nbytes (got ++ chunk.take (nbytes - got.length)) rest
            = got ++ chunk.take (nbytes - got.length) := by
          cases rest with
          | nil => rfl
          | cons c cs => exact if_neg (by omega)
        rw [hstop, List.flatten_cons, List.prefix_append_right_inj]
        exact (List.take_prefix _ _).trans (List.prefix_append _ _)
    · exact List.prefix_append _ _

/-- The whole request arrives, and the server decodes what the client has encoded. -/
theorem copyOut_requestBytes {t : SequenceTracker} {sentNs : UInt64} {received : List UInt8}
    {req : WireGapRequest} (hpre : received <+: requestBytes t sentNs)
    (hreq : copyOut WireGapRequest.image (received.take WireGapRequest.image.size) = some req) :
    received = requestBytes t sentNs ∧ req = encodeGapRequest {} 0 sentNs t.gapStart t.gapEnd := by
  have hlen : (requestBytes t sentNs).length = WireGapRequest.image.size :=
    WireGapRequest.image.put_length _
  have hshort : received.length ≤ WireGapRequest.image.size := hlen ▸ hpre.length_le
  rw [List.take_of_length_le hshort] at hreq
  have hall : received = requestBytes t sentNs := by
    refine hpre.eq_of_length_le ?_
    rw [hlen]
    by_contra hlt
    unfold copyOut at hreq
    rw [Library.ByteImage.Image.get_eq_none (by omega)] at hreq
    cases hreq
  refine ⟨hall, ?_⟩
  have hput := copyOut_put WireGapRequest.image (encodeGapRequest {} 0 sentNs t.gapStart t.gapEnd) []
  rw [List.append_nil] at hput
  rw [hall] at hreq
  exact (Option.some.inj (hput.symm.trans hreq)).symm

/-- **The server's reply** to what arrives of a request: nothing, or the header and the frames asked
for. -/
theorem serveConnection_reply {S : Session} {t : SequenceTracker} (hpend : t.gapPending = true)
    {sentNs nowNs : UInt64} {passes : Nat} {received reply : List UInt8}
    (hpre : received <+: requestBytes t sentNs)
    (hserve : serveConnection S.frames nowNs passes received = some reply) :
    reply = [] ∨ reply = WireGapResponse.image.put
        (serveHeader (encodeGapRequest {} 0 sentNs t.gapStart t.gapEnd) nowNs
          (S.range t.gapStart.toNat t.gapEnd.toNat).flatten)
      ++ (S.range t.gapStart.toNat t.gapEnd.toNat).flatten := by
  unfold serveConnection at hserve
  split at hserve
  case h_1 => exact Or.inl (Option.some.inj hserve).symm
  case h_2 req hreq =>
    obtain ⟨-, rfl⟩ := copyOut_requestBytes hpre hreq
    obtain ⟨payload, hpayload, rfl⟩ := Option.map_eq_some_iff.mp hserve
    refine Or.inr ?_
    have hstart : t.gapStart.toNat ≠ 0 := fun h0 =>
      SequenceTracker.gapPending_iff.mp hpend (UInt64.toNat_inj.mp h0)
    have hframes : payload = (S.range t.gapStart.toNat t.gapEnd.toNat).flatten := by
      rw [(servePayload_eq hpayload).2]
      unfold encodeGapRequest
      rw [loadBe64_storeBe64, loadBe64_storeBe64, requested_eq, Nat.max_eq_left (by omega)]
      rfl
    rw [hframes]

/-- With no reply there is no header. -/
theorem header_ne_nil (resp : WireGapResponse) (rest : List UInt8) :
    WireGapResponse.image.put resp ++ rest ≠ [] := by
  apply List.append_ne_nil_of_left_ne_nil
  apply List.ne_nil_of_length_pos
  rw [WireGapResponse.image.put_length]
  decide

namespace Recovery

variable {S : Session} {t : SequenceTracker} {rec : Recovery}

/-- **Whatever happens on the connection, the handler gets a prefix of the frames it asked for.** -/
theorem Exchange.serves (hpend : t.gapPending = true) (h : rec.Exchange S.frames t) :
    rec.Serves S t := by
  cases h with
  | socketFailed | connectFailed | sendFailed | headerFailed => trivial
  | @answered sentNs nowNs latencyNs passes received reply resp chunks request served stream =>
    show payloadOf resp chunks <+: _
    have hgot : payloadOf resp chunks <+: chunks.flatten := receivePayload_prefix _ chunks []
    rcases serveConnection_reply hpend request served with rfl | rfl
    · exact absurd (List.prefix_nil.mp stream) (header_ne_nil resp _)
    · obtain ⟨rest, hrest⟩ := stream
      rw [List.append_assoc] at hrest
      have hsplit := List.append_inj hrest (by
        rw [WireGapResponse.image.put_length, WireGapResponse.image.put_length])
      rw [← hsplit.2]
      exact hgot.trans (List.prefix_append _ _)

/-- A reply that gets through as a whole completes the recovery, unless it is too long to announce. -/
theorem Unbroken.completes (hpend : t.gapPending = true) (hsmall : S.frames.flatten.length < 2 ^ 32)
    (h : rec.Unbroken S.frames t) : rec.Completes S t := by
  cases rec with
  | socketFailed | connectFailed | sendFailed sentNs | headerFailed sentNs => exact h
  | answered sentNs resp chunks latencyNs =>
    obtain ⟨nowNs, passes, hserve, hne⟩ := h
    show payloadOf resp chunks = _
    rcases serveConnection_reply hpend List.prefix_rfl hserve with hnil | heq
    · exact absurd hnil (header_ne_nil resp _)
    · obtain ⟨hput, hchunks⟩ := List.append_inj heq (by
        rw [WireGapResponse.image.put_length, WireGapResponse.image.put_length])
      rw [WireGapResponse.image.put_injective hput]
      have hlen : (S.range t.gapStart.toNat t.gapEnd.toNat).flatten.length < 2 ^ 32 := by
        refine Nat.lt_of_le_of_lt (List.Sublist.length_le ?_) hsmall
        exact List.Sublist.flatten ((List.take_sublist _ _).trans (List.drop_sublist _ _))
      unfold payloadOf serveHeader encodeGapResponse
      rw [loadBe32_storeBe32, UInt32.toNat_ofNat', Nat.mod_eq_of_lt hlen,
        receivePayload_flatten hne [] (by rw [hchunks, List.length_nil, Nat.zero_add]),
        List.nil_append, hchunks]

end Recovery

/-! ## Handler and server -/

/-- A request for a range of the session is answered with the frames in it: the range does not reach
the largest number, with which the server's loop would go on forever. -/
theorem SentRequest.Ok.answered {S : Session} {r : SentRequest} (hok : r.Ok S.frames.length)
    (hn : S.frames.length < 2 ^ 64 - 1) (nowNs : UInt64) :
    let payload := (requested S.frames r.start.toNat r.stop.toNat).flatten
    ∃ passes, serveConnection S.frames nowNs passes (WireGapRequest.image.put r.request)
      = some (WireGapResponse.image.put (serveHeader r.request nowNs payload) ++ payload) := by
  intro payload
  have hne : loadBe64 r.request.endSeq ≠ 18446744073709551615 := by
    intro hmax
    have hlast := hok.2.2
    unfold SentRequest.stop at hlast
    rw [hmax, show (18446744073709551615 : UInt64).toNat = 2 ^ 64 - 1 from rfl] at hlast
    omega
  obtain ⟨passes, hserve⟩ : ∃ passes, servePayload S.frames r.request passes = some payload := by
    have hrun := iterate_eq_run (servePass_variant S.frames hne) (loadBe64 r.request.startSeq, [])
    rw [servePass_run hne, List.nil_append] at hrun
    exact ⟨_, hrun⟩
  refine ⟨passes, ?_⟩
  have hall : (WireGapRequest.image.put r.request).take WireGapRequest.image.size
      = WireGapRequest.image.put r.request :=
    List.take_of_length_le (WireGapRequest.image.put_length _).le
  have hput := copyOut_put WireGapRequest.image r.request []
  rw [List.append_nil] at hput
  unfold serveConnection
  rw [hall, hput]
  dsimp only
  rw [hserve]
  rfl

/-- The call attempts a recovery. -/
def FeedHandler.Asks (h : FeedHandler) (bytes : List UInt8) : Prop :=
  (parseMessage bytes).status = .ok ∧ (h.afterPush bytes).gapPending = true

/-- Without an attempt the network makes no difference. -/
theorem FeedHandler.processDatagram_unasked {h : FeedHandler} {bytes : List UInt8}
    (hnone : ¬ h.Asks bytes) (rec rec' : Recovery) :
    h.processDatagram bytes rec = h.processDatagram bytes rec' := by
  by_cases hok : (parseMessage bytes).status = .ok
  · have hidle : (h.afterPush bytes).gapPending = false :=
      Bool.eq_false_of_not_eq_true fun hpend => hnone ⟨hok, hpend⟩
    rw [processDatagram_accepted rec hok, processDatagram_accepted rec' hok, tryRecover_idle rec hidle,
      tryRecover_idle rec' hidle]
  · rw [processDatagram_rejected rec hok, processDatagram_rejected rec' hok]

/-- A call in which an attempt, if there is one, brings frames of the session. -/
theorem FeedHandler.Follows.call {S : Session} {h : FeedHandler} (hf : h.Follows S)
    (hready : h.tracker.ready = []) (hn : S.frames.length < 2 ^ 64 - 1) {bytes : List UInt8}
    {rec : Recovery} (hd : S.Datagram bytes) (hrec : h.Asks bytes → rec.FromSession S) :
    (h.processDatagram bytes rec).Follows S ∧ (h.processDatagram bytes rec).tracker.ready = [] := by
  by_cases hasks : h.Asks bytes
  · exact hf.processDatagram hready hn hd (hrec hasks)
  · rw [processDatagram_unasked hasks rec .socketFailed]
    exact hf.processDatagram hready hn hd trivial

/-- **Handler and server together.** The handler gets datagrams of a session of fewer than 2^64 - 1 frames,
in any order and with any loss and repetition, trailing bytes and any datagrams that `parse_message`
rejects; its recovery attempts talk to the server of that session over connections that may break after
any byte.  After every call the book, the events and the message counter are those of the frames below
`next_expected`, once each and in order; and every request that was ever sent is one that the server
answers, with exactly the frames asked for. -/
theorem recovery_exchange_consistent (S : Session) (hn : S.frames.length < 2 ^ 64 - 1)
    (h : FeedHandler)
    (hr : Reachable (fun h bytes rec => S.Datagram bytes ∧
      (h.Asks bytes → rec.Exchange S.frames (h.afterPush bytes))) h) :
    h.toOutputs = Outputs.replay (S.frames.take (h.tracker.stats.nextExpected.toNat - 1)) ∧
      ∀ r ∈ h.requests, ∀ nowNs,
        let payload := (requested S.frames r.start.toNat r.stop.toNat).flatten
        ∃ passes, serveConnection S.frames nowNs passes (WireGapRequest.image.put r.request)
          = some (WireGapResponse.image.put (serveHeader r.request nowNs payload) ++ payload) := by
  have hall : h.Follows S ∧ h.tracker.ready = [] := by
    induction hr with
    | start => exact ⟨FeedHandler.follows_start S, rfl⟩
    | call _ hcall ih =>
      exact ih.1.call ih.2 hn hcall.1 fun hasks =>
        ((hcall.2 hasks).serves hasks.2).fromSession
  obtain ⟨hf, hready⟩ := hall
  refine ⟨?_, fun r hr nowNs => (hf.requests r hr).answered hn nowNs⟩
  rw [← (hf.handled_eq hready hn).2.2]
  exact hf.outputs

/-- Frame 3 comes first, and the reply to the request for the frames before it breaks off after the
header and 50 bytes. -/
def brokenReply : Recovery :=
  let payload := (sampleSession.range 1 2).flatten
  .answered 40 (serveHeader (encodeGapRequest {} 0 40 1 2) 41 payload) [payload.take 50] 6

theorem recovery_exchange_consistent_broken :
    let h := FeedHandler.processDatagram {} (sampleSession.frames.getD 2 []) brokenReply
    h.tracker.stats.nextExpected = 2 ∧
      h.toOutputs = Outputs.replay (sampleSession.frames.take 1) := by
  intro h
  have hexchange : brokenReply.Exchange sampleSession.frames
      (FeedHandler.afterPush {} (sampleSession.frames.getD 2 [])) := by
    have hserve : serveConnection sampleSession.frames 41 5
        (requestBytes (FeedHandler.afterPush {} (sampleSession.frames.getD 2 [])) 40)
        = some (WireGapResponse.image.put
            (serveHeader (encodeGapRequest {} 0 40 1 2) 41 (sampleSession.range 1 2).flatten)
          ++ (sampleSession.range 1 2).flatten) := by
      decide +kernel
    refine .answered List.prefix_rfl hserve ?_
    rw [List.prefix_iff_eq_take]
    decide +kernel
  have hreach : Reachable (fun h bytes rec => sampleSession.Datagram bytes ∧
      (h.Asks bytes → rec.Exchange sampleSession.frames (h.afterPush bytes))) h := by
    refine .call .start ⟨Or.inl ⟨sampleSession.frames.getD 2 [], by decide +kernel, [], ?_⟩, fun _ => hexchange⟩
    rw [List.append_nil]
  have hnext : h.tracker.stats.nextExpected = 2 := by decide +kernel
  have hout := (recovery_exchange_consistent sampleSession (by decide) h hreach).1
  rw [hnext] at hout
  exact ⟨hnext, hout⟩

end MarketDataPipeline.Feed
