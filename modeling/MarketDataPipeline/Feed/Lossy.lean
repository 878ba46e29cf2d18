/-
# MarketDataPipeline.Feed.Lossy — a hostile feed with a recovery server behind it.

The simulator makes a session up, sends it with some frames lost and some delayed, and answers gap
requests from the same session; the handler receives what the network brings of it.  If the requests
are answered, nothing of the session is missing up to the last frame that arrived, whatever was lost
before it (`lossy_session_recovered`).  The frames behind that one are not missed: nothing tells the
handler that they exist.

The upper bound comes from the session that ends with the last frame received (`Session.upto`): the
handler cannot tell it from the whole one.
-/
import Mathlib.Algebra.Order.BigOperators.Group.List
import MarketDataPipeline.Feed.Exchange
import MarketDataPipeline.Feed.Sender
import MarketDataPipeline.Feed.Simulator

namespace MarketDataPipeline.Feed

open MarketDataPipeline.Wire
open MarketDataPipeline.Sequence
open MarketDataPipeline.Book

/-! ## The receive loop -/

/-- The body of the loop of `run` for a datagram in the socket: `recvfrom` cuts it to the 2048 bytes of
the buffer, and an empty one is skipped. -/
def FeedHandler.receive (h : FeedHandler) (bytes : List UInt8) (rec : Recovery) : FeedHandler :=
  let buf := bytes.take 2048
  if buf.length = 0 then h else h.processDatagram buf rec

/-- The buffer holds every message, so its size makes no difference. -/
theorem FeedHandler.receive_eq (h : FeedHandler) (bytes : List UInt8) (rec : Recovery) :
    h.receive bytes rec = h.processDatagram bytes rec := by
  have hcut : (parseMessage bytes).status = .ok →
      parseMessage (bytes.take 2048) = parseMessage bytes := by
    intro hok
    obtain ⟨-, hmax, hle⟩ := parseMessage_ok_bounds hok
    have hsplit : bytes.take 2048
        = bytes.take (parseMessage bytes).consumed
          ++ (bytes.take 2048).drop (parseMessage bytes).consumed := by
      have happ := List.take_append_drop (parseMessage bytes).consumed (bytes.take 2048)
      rw [List.take_take, Nat.min_eq_left (by omega)] at happ
      exact happ.symm
    rw [hsplit]
    exact parseMessage_take_append hok _
  by_cases hok : (parseMessage bytes).status = .ok
  · obtain ⟨hmin, hmax, hle⟩ := parseMessage_ok_bounds hok
    have hlen : (bytes.take 2048).length ≠ 0 := by
      rw [List.length_take]
      omega
    unfold receive processDatagram
    simp only [hcut hok, if_neg hlen, List.take_take]
    rw [Nat.min_eq_left (by omega)]
  · have hbad : (parseMessage (bytes.take 2048)).status ≠ .ok := by
      intro hok'
      have happ := parseMessage_append (by rw [hok']; decide) (bytes.drop 2048)
      rw [List.take_append_drop] at happ
      exact hok (happ ▸ hok')
    rw [processDatagram_rejected rec hok]
    unfold receive
    dsimp only
    split
    · rfl
    · exact processDatagram_rejected rec hbad

/-- A run of the receive loop: the datagrams, each with what the network does to an attempt to recover. -/
def runCalls (calls : List (List UInt8 × Recovery)) : FeedHandler :=
  calls.foldl (fun h c => h.receive c.1 c.2) {}

theorem runCalls_snoc (calls : List (List UInt8 × Recovery)) (c : List UInt8 × Recovery) :
    runCalls (calls ++ [c]) = (runCalls calls).processDatagram c.1 c.2 := by
  unfold runCalls
  rw [List.foldl_append, List.foldl_cons, List.foldl_nil, FeedHandler.receive_eq]

/-- Every attempt in the run gets a whole reply from the server of `session`. -/
def Recovered (session : List (List UInt8)) (calls : List (List UInt8 × Recovery)) : Prop :=
  ∀ pre c, pre ++ [c] <+: calls → (runCalls pre).Asks c.1 →
    c.2.Unbroken session ((runCalls pre).afterPush c.1)

/-! ## The last frame received -/

/-- The number of the frame that a datagram carries, and 0 if it carries none. -/
def carried (bytes : List UInt8) : Nat :=
  if (parseMessage bytes).status = .ok then
    (frameSeq (bytes.take (parseMessage bytes).consumed)).toNat
  else 0

def lastCarried (calls : List (List UInt8 × Recovery)) : Nat :=
  ((calls.map fun c => carried c.1).max?).getD 0

theorem carried_le_last {calls : List (List UInt8 × Recovery)} {c : List UInt8 × Recovery}
    (hc : c ∈ calls) : carried c.1 ≤ lastCarried calls := by
  have hmem : carried c.1 ∈ calls.map fun c => carried c.1 := List.mem_map_of_mem hc
  unfold lastCarried
  cases hmax : (calls.map fun c => carried c.1).max? with
  | none =>
    rw [List.max?_eq_none_iff] at hmax
    rw [hmax] at hmem
    cases hmem
  | some m => exact (List.max?_eq_some_iff.mp hmax).2 _ hmem

theorem exists_last (calls : List (List UInt8 × Recovery)) :
    lastCarried calls = 0 ∨ ∃ c ∈ calls, carried c.1 = lastCarried calls := by
  unfold lastCarried
  cases hmax : (calls.map fun c => carried c.1).max? with
  | none => exact Or.inl rfl
  | some m =>
    obtain ⟨c, hc, hcm⟩ := List.mem_map.mp (List.max?_eq_some_iff.mp hmax).1
    exact Or.inr ⟨c, hc, hcm⟩

namespace Session

variable {S : Session} {n : Nat}

/-- The session that ends after `n` frames. -/
def upto (S : Session) (n : Nat) : Session where
  frames := S.frames.take n
  whole := fun f hf => S.whole f (List.mem_of_mem_take hf)
  seq := by
    intro i hi
    have hlt := List.length_take_le' n S.frames
    rw [List.getElem_take]
    exact S.seq i (by omega)

theorem upto_length (hn : n ≤ S.frames.length) : (S.upto n).frames.length = n :=
  List.length_take_of_le hn

theorem mem_upto {f : List UInt8} (hf : f ∈ S.frames) (hle : (frameSeq f).toNat ≤ n) :
    f ∈ (S.upto n).frames := by
  obtain ⟨i, hi, rfl⟩ := List.mem_iff_getElem.mp hf
  rw [frameSeq_getElem hi] at hle
  exact List.mem_iff_getElem.mpr ⟨i, by rw [upto, List.length_take]; omega, List.getElem_take⟩

theorem carried_frame {bytes : List UInt8} (hok : (parseMessage bytes).status = .ok) :
    carried bytes = (frameSeq (bytes.take (parseMessage bytes).consumed)).toNat :=
  if_pos hok

/-- A datagram of a frame up to the last one is a datagram of the shorter session. -/
theorem Datagram.upto {bytes : List UInt8} (hd : S.Datagram bytes) (hle : carried bytes ≤ n) :
    (S.upto n).Datagram bytes := by
  by_cases hok : (parseMessage bytes).status = .ok
  · rw [carried_frame hok] at hle
    exact Or.inl ⟨_, mem_upto (hd.frame hok) hle, _, (List.take_append_drop _ _).symm⟩
  · exact Or.inr hok

/-- The frames of a range that lies in the shorter session. -/
theorem range_upto {lo hi : Nat} (hlo : 1 ≤ lo) (hhi : hi ≤ n) : (S.upto n).range lo hi = S.range lo hi := by
  unfold range Session.upto
  rw [List.drop_take, List.take_take]
  congr 1
  omega

end Session

/-! ## Calls whose recoveries succeed -/

namespace FeedHandler

variable {S : Session} {h : FeedHandler}

theorem tryRecover_handled (rec : Recovery) : (h.tryRecover rec).handled = h.handled := by
  rcases tryRecover_cases h rec with ⟨-, heq⟩ | ⟨-, heq | ⟨sentNs, heq⟩ | ⟨_, _, _, _, -, heq⟩⟩ <;>
    rw [heq] <;> rfl

/-- The frame of a datagram is delivered when the call returns, and no gap is left. -/
theorem Follows.callComplete (hf : h.Follows S) (hready : h.tracker.ready = [])
    (hgap : h.tracker.gapPending = false) (hn : S.frames.length < 2 ^ 64 - 1) {bytes : List UInt8}
    {rec : Recovery} (hd : S.Datagram bytes)
    (hrec : h.Asks bytes → rec.Completes S (h.afterPush bytes)) :
    let h' := h.processDatagram bytes rec
    h'.Follows S ∧ h'.tracker.ready = [] ∧ h'.tracker.gapPending = false ∧
      carried bytes < h'.tracker.stats.nextExpected.toNat ∧
      h.tracker.stats.nextExpected.toNat ≤ h'.tracker.stats.nextExpected.toNat := by
  intro h'
  have hnext := (hf.handled_eq hready hn).1
  by_cases hok : (parseMessage bytes).status = .ok
  · have hmem := hd.frame hok
    obtain ⟨hheld, hown⟩ := hf.pushOwn hn hmem
    have hpushed : Follows S { h with tracker := h.afterPush bytes } := hf.push hn hmem
    obtain ⟨hfollows, hlt, hnone, -⟩ := hpushed.recoverComplete hn hheld hown
      fun hpend => hrec ⟨hok, hpend⟩
    obtain ⟨hend, hempty⟩ := hfollows.drain
    have heq : h' = (FeedHandler.tryRecover { h with tracker := h.afterPush bytes } rec).drain :=
      processDatagram_accepted rec hok
    have hgrow : h.handled.length ≤ h'.handled.length := by
      rw [heq, hfollows.drain_eq, List.length_append, tryRecover_handled]
      exact Nat.le_add_right _ _
    rw [Session.carried_frame hok]
    rw [heq] at hgrow ⊢
    have hnext' := (hend.handled_eq hempty hn).1
    refine ⟨hend, hempty, ?_, ?_, by omega⟩
    · rw [drain_tracker]
      exact hnone
    · rw [drain_tracker]
      exact hlt
  · have heq : h' = h := processDatagram_rejected rec hok
    have hzero : carried bytes = 0 := if_neg hok
    rw [heq, hzero]
    exact ⟨hf, hready, hgap, by omega, le_rfl⟩

end FeedHandler

/-- The handler after some calls: it follows the session, no gap is pending, and the frames that arrived
have been delivered. -/
structure CaughtUp (S : Session) (calls : List (List UInt8 × Recovery)) : Prop where
  follows : (runCalls calls).Follows S
  ready : (runCalls calls).tracker.ready = []
  gap : (runCalls calls).tracker.gapPending = false
  delivered : ∀ c ∈ calls, carried c.1 < (runCalls calls).tracker.stats.nextExpected.toNat

/-- Nothing beyond the last frame received is asked for, so the shorter session is enough. -/
theorem Recovery.Unbroken.completes_upto {S : Session} {t : SequenceTracker} {rec : Recovery} {n : Nat}
    (hsmall : S.frames.flatten.length < 2 ^ 32) (hpend : t.gapPending = true) (hgap : t.GapOk n)
    (h : rec.Unbroken S.frames t) : rec.Completes (S.upto n) t := by
  have hcomplete := h.completes hpend hsmall
  have hstart : t.gapStart.toNat ≠ 0 := fun h0 =>
    SequenceTracker.gapPending_iff.mp hpend (UInt64.toNat_inj.mp h0)
  have hend := (hgap (SequenceTracker.gapPending_iff.mp hpend)).2.2
  cases rec with
  | socketFailed | connectFailed | sendFailed sentNs | headerFailed sentNs => exact hcomplete
  | answered sentNs resp chunks latencyNs =>
    show payloadOf resp chunks = _
    rw [Session.range_upto (by omega) (by omega)]
    exact hcomplete

theorem CaughtUp.snoc {S : Session} {n : Nat} (hn : n < 2 ^ 64 - 1) (hlen : n ≤ S.frames.length)
    (hsmall : S.frames.flatten.length < 2 ^ 32) {pre : List (List UInt8 × Recovery)}
    {c : List UInt8 × Recovery} (h : CaughtUp (S.upto n) pre) (hd : S.Datagram c.1)
    (hle : carried c.1 ≤ n)
    (hrec : (runCalls pre).Asks c.1 → c.2.Unbroken S.frames ((runCalls pre).afterPush c.1)) :
    CaughtUp (S.upto n) (pre ++ [c]) := by
  have hshort : (S.upto n).frames.length < 2 ^ 64 - 1 := by
    rw [Session.upto_length hlen]
    exact hn
  have hd' := hd.upto hle
  have hcomplete : (runCalls pre).Asks c.1 →
      c.2.Completes (S.upto n) ((runCalls pre).afterPush c.1) := by
    intro hasks
    have hgap := (h.follows.push hshort (hd'.frame hasks.1)).gap
    rw [Session.upto_length hlen] at hgap
    exact (hrec hasks).completes_upto hsmall hasks.2 hgap
  obtain ⟨hf, hready, hgap, hlt, hmono⟩ := h.follows.callComplete h.ready h.gap hshort hd' hcomplete
  refine ⟨?_, ?_, ?_, ?_⟩ <;> rw [runCalls_snoc]
  · exact hf
  · exact hready
  · exact hgap
  · intro c' hc'
    rcases List.mem_append.mp hc' with hold | hnew
    · exact (h.delivered c' hold).trans_le hmono
    · rw [List.mem_singleton.mp hnew]
      exact hlt

/-- The numbers that datagrams of a session carry are those of its frames. -/
theorem Session.Datagram.carried_le {S : Session} {bytes : List UInt8} (hd : S.Datagram bytes) :
    carried bytes ≤ S.frames.length := by
  by_cases hok : (parseMessage bytes).status = .ok
  · rw [Session.carried_frame hok]
    exact Session.seq_le _ (hd.frame hok)
  · unfold carried
    rw [if_neg hok]
    exact Nat.zero_le _

theorem lastCarried_le {S : Session} {calls : List (List UInt8 × Recovery)}
    (hd : ∀ c ∈ calls, S.Datagram c.1) : lastCarried calls ≤ S.frames.length := by
  rcases exists_last calls with hzero | ⟨c, hc, hlast⟩
  · rw [hzero]
    exact Nat.zero_le _
  · rw [← hlast]
    exact (hd c hc).carried_le

/-- **Up to the last frame received nothing is missing**, and beyond it nothing is made up. -/
theorem runCalls_delivers {S : Session} (hn : S.frames.length < 2 ^ 64 - 1)
    (hsmall : S.frames.flatten.length < 2 ^ 32) {calls : List (List UInt8 × Recovery)}
    (hd : ∀ c ∈ calls, S.Datagram c.1) (hrec : Recovered S.frames calls) :
    (runCalls calls).tracker.stats.nextExpected.toNat = lastCarried calls + 1 ∧
      (runCalls calls).tracker.gapPending = false ∧
      (runCalls calls).toOutputs = Outputs.replay (S.frames.take (lastCarried calls)) := by
  have hlen := lastCarried_le hd
  have hall : ∀ pre, pre <+: calls → CaughtUp (S.upto (lastCarried calls)) pre := by
    intro pre
    induction pre using List.reverseRecOn with
    | nil => exact fun _ => ⟨FeedHandler.follows_start _, rfl, rfl, fun _ hc => absurd hc List.not_mem_nil⟩
    | append_singleton pre c ih =>
      intro hpre
      have hc : c ∈ calls := hpre.subset (List.mem_append_right _ (List.mem_singleton_self c))
      exact (ih ((List.prefix_append _ _).trans hpre)).snoc (by omega) hlen hsmall (hd c hc)
        (carried_le_last hc) (hrec pre c hpre)
  have h := hall calls List.prefix_rfl
  have hshort : (S.upto (lastCarried calls)).frames.length < 2 ^ 64 - 1 := by
    rw [Session.upto_length hlen]
    omega
  obtain ⟨hnext, hmax, htake⟩ := h.follows.handled_eq h.ready hshort
  rw [Session.upto_length hlen] at hmax
  have hreached : lastCarried calls < (runCalls calls).tracker.stats.nextExpected.toNat := by
    rcases exists_last calls with hzero | ⟨c, hc, hlast⟩
    · omega
    · rw [← hlast]
      exact h.delivered c hc
  refine ⟨by omega, h.gap, ?_⟩
  rw [h.follows.outputs, htake, show (runCalls calls).tracker.stats.nextExpected.toNat - 1
    = lastCarried calls by omega]
  exact congrArg Outputs.replay (by rw [Session.upto, List.take_take, Nat.min_self])

/-! ## Generated sessions -/

open SimState in
/-- The session that the generator makes up. -/
def generatedSession (cfg : SimulatorConfig) (hsym : 1 ≤ cfg.symbols ∧ cfg.symbols ≤ 32)
    (hmessages : cfg.messages ≤ 65536) (draws : Nat → Draws cfg) : Session where
  frames := generateSession cfg draws
  whole := by
    intro f hf
    have hall : Tracks cfg.messages.toNat (after draws cfg.messages.toNat) :=
      after_tracks hsym draws _ (by omega)
    obtain ⟨pre, post, hsplit⟩ := List.append_of_mem hf
    obtain ⟨hdr, m, hcarry, -⟩ := hall.placed pre f post hsplit
    exact ⟨hcarry.ok, hcarry.consumed⟩
  seq := by
    intro i hi
    have hall : Tracks cfg.messages.toNat (after draws cfg.messages.toNat) :=
      after_tracks hsym draws _ (by omega)
    have hsplit : generateSession cfg draws = (generateSession cfg draws).take i
        ++ (generateSession cfg draws)[i] :: (generateSession cfg draws).drop (i + 1) := by
      rw [← List.drop_eq_getElem_cons hi, List.take_append_drop]
    obtain ⟨hdr, m, hcarry, hseq, -⟩ := hall.placed _ _ _ hsplit
    rw [hcarry.header, Option.map_some, hseq, List.length_take_of_le hi.le]

section Generated

variable {cfg : SimulatorConfig} {draws : Nat → Draws cfg}

/-- What is sent are frames of the session. -/
theorem mem_of_mem_datagrams {sendDraws : Nat → SendDraw} {session : List (List UInt8)}
    {bytes : List UInt8} (h : bytes ∈ datagrams sendDraws session) : bytes ∈ session := by
  obtain ⟨o, ho, rfl⟩ := List.mem_map.mp h
  have hkept := (sendAll_perm sendDraws session).mem_iff.mp ho
  obtain ⟨i, hi, rfl⟩ := List.mem_mapIdx.mp (List.mem_filter.mp hkept).1
  exact List.getElem_mem hi

/-- A message of the generator is about at most 100 shares. -/
theorem SimState.Effect.qty_le {d : Draws cfg} {s s' : SimState} {m : BookMsg}
    (he : SimState.Effect d s s' m) : m.qty ≤ 100 := by
  have hqty := UInt32.le_iff_toNat_le.mp d.qty_range.2
  cases he with
  | add | modify => exact hqty
  | delete | trade => exact Nat.zero_le _

/-- So no level of a generated session comes near the end of its 32 bits. -/
theorem SimState.after_total (n : Nat) :
    ((bookMsgs (SimState.after draws n).session).map BookMsg.qty).sum ≤ 100 * n := by
  induction n with
  | zero => exact Nat.le_refl 0
  | succ n ih =>
    obtain ⟨f, hdr, m, hsession, -, hcarry, -, -, he⟩ :=
      SimState.pass_effect (SimState.after draws n) n (draws n)
    have hqty := he.qty_le
    show ((bookMsgs ((SimState.after draws n).pass n (draws n)).session).map BookMsg.qty).sum ≤ _
    rw [hsession, bookMsgs_snoc, hcarry.call, Option.toList_some, List.map_append, List.sum_append,
      List.map_singleton, List.sum_singleton]
    omega

/-- A session is at most 44 bytes a frame. -/
theorem Session.flatten_length_le (S : Session) : S.frames.flatten.length ≤ 44 * S.frames.length := by
  have hmax : ∀ n ∈ S.frames.map List.length, n ≤ 44 := by
    intro n hn
    obtain ⟨f, hf, rfl⟩ := List.mem_map.mp hn
    exact (Session.frame_size hf).2
  have hsum := List.sum_le_card_nsmul (S.frames.map List.length) 44 hmax
  rw [List.length_map] at hsum
  rw [List.length_flatten, Nat.mul_comm]
  exact hsum

/-- **A hostile feed with a working recovery channel.** For every session the simulator makes up and
every outcome of its loss and reorder draws, and whatever the network does to the datagrams (loss,
repetition, any order): if every gap request gets its reply from the simulator's server, then after the
last datagram the handler has handled exactly the frames up to the largest number that arrived, once
each and in order, and no gap is pending.  Its live orders are the generator's at that point, and every
level shows the sum of the orders resting there. -/
theorem lossy_session_recovered (cfg : SimulatorConfig) (hsym : 1 ≤ cfg.symbols ∧ cfg.symbols ≤ 32)
    (hmessages : cfg.messages ≤ 65536) (draws : Nat → Draws cfg) (sendDraws : Nat → SendDraw)
    (calls : List (List UInt8 × Recovery))
    (hcalls : ∀ c ∈ calls, c.1 ∈ datagrams sendDraws (generateSession cfg draws))
    (hrec : Recovered (generateSession cfg draws) calls) :
    let h := runCalls calls
    let last := lastCarried calls
    let frames := (generateSession cfg draws).take last
    let M := (specBook (bookMsgs frames)).orders
    h.tracker.stats.nextExpected.toNat = last + 1 ∧ h.tracker.gapPending = false ∧
      h.toOutputs = Outputs.replay frames ∧
      (∀ orderId, orderId ∈ (SimState.after draws last).liveOrders ↔
        (h.book.liveRecord orderId).isSome = true) ∧
      ∀ symbolId price : UInt32,
        (h.book.bidQtyAt symbolId price).toNat = levelQty M symbolId .buy price.toNat ∧
        (h.book.askQtyAt symbolId price).toNat = levelQty M symbolId .sell price.toNat := by
  intro h last frames M
  let S := generatedSession cfg hsym hmessages draws
  have hlen : S.frames.length = cfg.messages.toNat :=
    (SimState.after_tracks hsym draws _ (by omega)).length
  have hsmall : S.frames.flatten.length < 2 ^ 32 := by
    have hle := S.flatten_length_le
    omega
  have hd : ∀ c ∈ calls, S.Datagram c.1 := fun c hc =>
    Or.inl ⟨c.1, mem_of_mem_datagrams (hcalls c hc), [], (List.append_nil _).symm⟩
  obtain ⟨hnext, hgap, hout⟩ := runCalls_delivers (S := S) (by omega) hsmall hd hrec
  have hlast : last ≤ cfg.messages.toNat := hlen ▸ lastCarried_le hd
  have hframes : frames = (SimState.after draws last).session := by
    obtain ⟨k, hk⟩ := Nat.exists_eq_add_of_le hlast
    show (SimState.after draws cfg.messages.toNat).session.take last = _
    rw [hk]
    exact SimState.after_session_take hsym draws (by omega)
  have hbook : h.book = runBook (bookMsgs frames) := by
    rw [show h.book = h.toOutputs.book from rfl, hout]
    exact Outputs.replay_book frames
  refine ⟨hnext, hgap, hout, ?_, ?_⟩
  · intro orderId
    rw [hbook, hframes, (SimState.after_tracks hsym draws last (by omega)).live,
      ← (runBook_holds _).find_isSome, BookBuilder.liveRecord, Option.isSome_map]
  · intro symbolId
    have htotal : ((bookMsgs frames).map BookMsg.qty).sum < 2 ^ 32 := by
      have hle : ((bookMsgs (SimState.after draws last).session).map BookMsg.qty).sum ≤ 100 * last :=
        SimState.after_total last
      rw [← hframes] at hle
      omega
    rw [hbook]
    exact (runBook_refines _ (levelQty_lt_of_total htotal)).qtyAt symbolId

/-- Of the sample session of three frames the first is lost; the others arrive, and the server is asked
for it once. -/
def sampleReply : Recovery :=
  let payload := (generateSession _ sampleDraws).getD 0 []
  .answered 40 (serveHeader (encodeGapRequest {} 0 40 1 1) 41 payload) [payload.take 7, payload.drop 7] 6

def sampleReceived : List (List UInt8 × Recovery) :=
  [((generateSession _ sampleDraws).getD 1 [], sampleReply),
    ((generateSession _ sampleDraws).getD 2 [], .connectFailed)]

theorem lossy_session_recovered_first_lost :
    let sendDraws : Nat → SendDraw := fun i => { lost := i == 0 }
    sampleReceived.map Prod.fst = datagrams sendDraws (generateSession _ sampleDraws) ∧
      (runCalls sampleReceived).tracker.stats.nextExpected.toNat = 4 := by
  intro sendDraws
  have hsent : sampleReceived.map Prod.fst = datagrams sendDraws (generateSession _ sampleDraws) := by
    decide +kernel
  have hcalls : ∀ c ∈ sampleReceived, c.1 ∈ datagrams sendDraws (generateSession _ sampleDraws) := by
    intro c hc
    rw [← hsent]
    exact List.mem_map_of_mem hc
  have hrec : Recovered (generateSession _ sampleDraws) sampleReceived := by
    intro pre c hpre hasks
    obtain ⟨post, hsplit⟩ := hpre
    match pre, hsplit with
    | [], hsplit =>
      obtain rfl : c = _ := (List.cons.inj hsplit).1
      refine ⟨41, 3, ?_, ?_⟩
      · decide +kernel
      · decide +kernel
    | [c'], hsplit =>
      obtain ⟨rfl, hrest⟩ := List.cons.inj hsplit
      obtain rfl : c = _ := (List.cons.inj hrest).1
      exact absurd hasks.2 (by decide +kernel)
    | c' :: c'' :: pre, hsplit =>
      exact absurd (congrArg List.length hsplit) (by simp [sampleReceived])
  obtain ⟨hnext, -⟩ := lossy_session_recovered _ (by decide) (by decide) sampleDraws sendDraws
    sampleReceived hcalls hrec
  exact ⟨hsent, hnext.trans (by decide +kernel)⟩

end Generated

end MarketDataPipeline.Feed
