/-
# MarketDataPipeline.Feed.CatchUp — a complete recovery closes the gap.

The recovered frames start at or before `next_expected` and have consecutive numbers.  So each of them
is late or expected at the moment it is pushed, never early: recovery buffers nothing, and what is in
the window stays there until it is delivered (`Held`).  After the last one `next_expected` is beyond the
requested range, and the frame that triggered the recovery, which is the one after that range or inside
it, has been delivered too.

Only the wrap of the counter is excepted: a session of `2^64 - 1` frames ends with `next_expected` at 0
(`catch_up_fails_at_wrap`).
-/
import MarketDataPipeline.Feed.Session

namespace MarketDataPipeline.Feed

open MarketDataPipeline.Library.Framing
open MarketDataPipeline.Wire
open MarketDataPipeline.Sequence

/-! ## Pushing late and expected frames -/

/-- Number `s` has been delivered or is in the window. -/
def Held (s : Nat) (t : SequenceTracker) : Prop :=
  s < t.stats.nextExpected.toNat ∨
    ∃ i, (t.window i).occupied = true ∧ (t.window i).seq.toNat = s

section Tracker

variable {n : Nat} {P : List UInt8 → Prop} {r : TrackerRun} {f : List UInt8}

/-- What has appeared is behind the counter. -/
theorem lt_next_of_appeared (h : r.Sound P) (hP : ∀ f, P f → (frameSeq f).toNat ≤ n)
    (hn : n < 2 ^ 64 - 1) (hf : f ∈ r.appeared) :
    (frameSeq f).toNat < r.tracker.stats.nextExpected.toNat := by
  obtain ⟨hlen, hnext⟩ := h.next_toNat hP hn
  rw [hnext]
  exact ((numbered_mem_iff h.numbered (by omega) _).mp ⟨f, hf, rfl⟩).2

/-- A late or expected frame is behind the counter afterwards, and nothing in the window is lost. -/
theorem push_behind (h : r.Sound P) (hP : ∀ f, P f → (frameSeq f).toNat ≤ n)
    (hn : n < 2 ^ 64 - 1) (hf : P f) (h20 : 20 ≤ f.length) (h44 : f.length ≤ 44)
    (hle : (frameSeq f).toNat ≤ r.tracker.stats.nextExpected.toNat) :
    (frameSeq f).toNat < (r.tracker.push f).1.stats.nextExpected.toNat ∧
      ∀ s, Held s r.tracker → Held s (r.tracker.push f).1 := by
  have hbehind : ∀ g ∈ (r.tracker.push f).1.ready,
      (frameSeq g).toNat < (r.tracker.push f).1.stats.nextExpected.toNat := fun g hg =>
    lt_next_of_appeared (h.push hf) hP hn (List.mem_append_right _ hg)
  rcases SequenceTracker.push_cases r.tracker f with ⟨hbad, -⟩ | ⟨-, -, hcase⟩
  · exact absurd ⟨h20, h44⟩ hbad
  rcases hcase with ⟨hexp, -⟩ | ⟨hlt, heq⟩ | ⟨hgt, -⟩
  · obtain ⟨out, t', hflush, hwin, hready, -⟩ := SequenceTracker.push_expected h20 h44 hexp
    refine ⟨hbehind f (by rw [hready]; simp), ?_⟩
    rintro s (hs | ⟨i, hi, hs⟩)
    · exact Or.inl (hs.trans_le (h.push_mono hP hn hf))
    · -- the flush leaves the slot alone or delivers its frame
      rcases hflush.keeps hi with hsame | hmem
      · exact Or.inr ⟨i, by rw [hwin, hsame]; exact hi, by rw [hwin, hsame]; exact hs⟩
      · have hlt := hbehind _ (by rw [hready]; exact List.mem_append_right _ (.tail _ hmem))
        rw [show frameSeq ((r.tracker.accept f).window i).frame = _ from h.settled.frameSeq hi] at hlt
        exact Or.inl (by rw [← hs]; exact hlt)
  · rw [heq]
    exact ⟨UInt64.lt_iff_toNat_lt.mp hlt, fun s hs => hs⟩
  · rw [UInt64.lt_iff_toNat_lt] at hgt
    omega

/-- Every frame is held after it has been pushed. -/
theorem push_held (h : r.Sound P) (hP : ∀ f, P f → (frameSeq f).toNat ≤ n)
    (hn : n < 2 ^ 64 - 1) (hf : P f) (h20 : 20 ≤ f.length) (h44 : f.length ≤ 44) :
    Held (frameSeq f).toNat (r.tracker.push f).1 := by
  rcases Nat.lt_or_ge r.tracker.stats.nextExpected.toNat (frameSeq f).toNat with hgt | hle
  · obtain ⟨hocc, hseq⟩ := SequenceTracker.push_early h20 h44 (UInt64.lt_iff_toNat_lt.mpr hgt)
    exact Or.inr ⟨_, hocc, by rw [hseq]⟩
  · exact Or.inl (push_behind h hP hn hf h20 h44 hle).1

/-- **Frames in a row, starting at or before `next_expected`**: the counter ends beyond the last one,
and nothing that was held is lost. -/
theorem catch_up (h : r.Sound P) (hP : ∀ f, P f → (frameSeq f).toNat ≤ n) (hn : n < 2 ^ 64 - 1)
    {frames : List (List UInt8)} {j : Nat} (hnum : Numbered (UInt64.ofNat j) frames)
    (hmem : ∀ f ∈ frames, P f) (hsize : ∀ f ∈ frames, 20 ≤ f.length ∧ f.length ≤ 44)
    (hlen : j + frames.length ≤ 2 ^ 64) (hj : j ≤ r.tracker.stats.nextExpected.toNat) :
    j + frames.length
        ≤ (frames.foldl (fun t f => (t.push f).1) r.tracker).stats.nextExpected.toNat ∧
      ∀ s, Held s r.tracker → Held s (frames.foldl (fun t f => (t.push f).1) r.tracker) := by
  induction frames generalizing r j with
  | nil => exact ⟨hj, fun s hs => hs⟩
  | cons f frames ih =>
    rw [List.length_cons] at hlen
    have hf : P f := hmem f (List.mem_cons_self ..)
    obtain ⟨h20, h44⟩ := hsize f (List.mem_cons_self ..)
    have hseq : (frameSeq f).toNat = j := by
      rw [hnum.1, toNat_ofNat_of_lt (by omega)]
    obtain ⟨hlt, hkeep⟩ := push_behind h hP hn hf h20 h44 (by omega)
    have hnext : Numbered (UInt64.ofNat (j + 1)) frames := by
      rw [UInt64.ofNat_add]
      exact hnum.2
    obtain ⟨hend, hheld⟩ := ih (h.push hf) hnext (fun g hg => hmem g (List.mem_cons_of_mem _ hg))
      (fun g hg => hsize g (List.mem_cons_of_mem _ hg)) (by omega)
      (show j + 1 ≤ (r.tracker.push f).1.stats.nextExpected.toNat by omega)
    refine ⟨?_, fun s hs => hheld s (hkeep s hs)⟩
    rw [List.length_cons]
    exact (show j + (frames.length + 1) = j + 1 + frames.length by omega) ▸ hend

/-- An early frame leaves a gap pending that reaches up to it. -/
theorem push_early_gap {t : SequenceTracker} (h20 : 20 ≤ f.length) (h44 : f.length ≤ 44)
    (hgt : t.stats.nextExpected < frameSeq f) (hpos : t.stats.nextExpected ≠ 0) :
    (t.push f).1.gapPending = true ∧ (frameSeq f).toNat ≤ (t.push f).1.gapEnd.toNat + 1 := by
  have hpred := SequenceTracker.toNat_pos_of_lt hgt
  obtain ⟨hgs, hge⟩ := SequenceTracker.buffer_gap t f
  rw [SequenceTracker.push_of_early h20 h44 hgt, SequenceTracker.gapPending_iff, hgs, hge]
  constructor
  · split_ifs with h0
    · exact hpos
    · exact h0
  · split_ifs with hgrow
    · exact hpred.ge
    · rw [not_or, UInt64.lt_iff_toNat_lt] at hgrow
      omega

end Tracker

/-! ## The requested range -/

theorem numbered_of_getElem {s : Nat} {fs : List (List UInt8)}
    (h : ∀ i (hi : i < fs.length), frameSeq fs[i] = UInt64.ofNat (s + i)) :
    Numbered (UInt64.ofNat s) fs := by
  induction fs generalizing s with
  | nil => trivial
  | cons f fs ih =>
    refine ⟨h 0 (Nat.succ_pos _), ?_⟩
    have hrest : Numbered (UInt64.ofNat (s + 1)) fs := by
      apply ih
      intro i hi
      have hi' := h (i + 1) (Nat.succ_lt_succ hi)
      rw [List.getElem_cons_succ] at hi'
      rw [hi', Nat.add_right_comm, Nat.add_assoc]
    rw [UInt64.ofNat_add] at hrest
    exact hrest

namespace Session

variable {S : Session}

theorem numbered_range {lo hi : Nat} (hlo : 1 ≤ lo) :
    Numbered (UInt64.ofNat lo) (S.range lo hi) := by
  apply numbered_of_getElem
  intro i hi
  unfold range at hi ⊢
  rw [List.length_take, List.length_drop] at hi
  rw [List.getElem_take, List.getElem_drop]
  apply UInt64.toNat_inj.mp
  have hseq := frameSeq_getElem (S := S) (i := lo - 1 + i) (by omega)
  have hbound := (frameSeq S.frames[lo - 1 + i]).toNat_lt
  rw [hseq, toNat_ofNat_of_lt (by omega)]
  omega

theorem range_length {lo hi : Nat} (hlo : 1 ≤ lo) (hle : lo ≤ hi + 1) (hhi : hi ≤ S.frames.length) :
    lo + (S.range lo hi).length = hi + 1 := by
  unfold range
  rw [List.length_take, List.length_drop]
  omega

end Session

/-! ## One call -/

/-- The attempt succeeds: the server's frames `gap_start … gap_end` arrive, all of them and in order. -/
def Recovery.Completes (S : Session) (t : SequenceTracker) : Recovery → Prop
  | .answered _ resp chunks _ =>
    payloadOf resp chunks = (S.range t.gapStart.toNat t.gapEnd.toNat).flatten
  | _ => False

namespace FeedHandler

variable {S : Session} {h : FeedHandler}

theorem gapStart_pos (hpend : h.tracker.gapPending = true) :
    1 ≤ h.tracker.gapStart.toNat := by
  have hne := SequenceTracker.gapPending_iff.mp hpend
  by_contra hzero
  exact hne (UInt64.toNat_inj.mp (by rw [UInt64.toNat_zero]; omega))

/-- Where a complete recovery leaves the tracker. -/
theorem Follows.pushRange (hf : h.Follows S) (hn : S.frames.length < 2 ^ 64 - 1)
    (hpend : h.tracker.gapPending = true) :
    let t := (S.range h.tracker.gapStart.toNat h.tracker.gapEnd.toNat).foldl
      (fun t f => (t.push f).1) h.tracker
    h.tracker.gapEnd.toNat < t.stats.nextExpected.toNat ∧
      ∀ s, Held s h.tracker → Held s t := by
  intro t
  have hlo := gapStart_pos hpend
  obtain ⟨hstart, hnext, hend⟩ := hf.gap (SequenceTracker.gapPending_iff.mp hpend)
  have hlen := Session.range_length (S := S) hlo (show h.tracker.gapStart.toNat
    ≤ h.tracker.gapEnd.toNat + 1 by omega) (by omega)
  have hnum : Numbered _ (S.range h.tracker.gapStart.toNat h.tracker.gapEnd.toNat) :=
    Session.numbered_range hlo
  obtain ⟨hbeyond, hheld⟩ := catch_up hf.sound Session.seq_le hn hnum
    Session.range_subset (fun f hf => Session.frame_size (Session.range_subset f hf)) (by omega) hstart
  rw [hlen] at hbeyond
  exact ⟨hbeyond, hheld⟩

/-- The window holds nothing at `next_expected`, so a held number up to it has been delivered. -/
theorem Follows.delivered (hf : h.Follows S) {s : Nat} (hheld : Held s h.tracker)
    (hle : s ≤ h.tracker.stats.nextExpected.toNat) : s < h.tracker.stats.nextExpected.toNat := by
  rcases hheld with hlt | ⟨i, hi, hseq⟩
  · exact hlt
  · obtain ⟨-, -, -, hlo, -⟩ := hf.sound.settled i hi
    have hlo : h.tracker.stats.nextExpected.toNat + 1 ≤ (h.tracker.window i).seq.toNat := hlo
    omega

/-- **`try_recover` with a complete answer.**  `s` is the number of the frame just pushed. -/
theorem Follows.recoverComplete (hf : h.Follows S) (hn : S.frames.length < 2 ^ 64 - 1)
    {rec : Recovery} {s : Nat} (hheld : Held s h.tracker)
    (hs : s < h.tracker.stats.nextExpected.toNat ∨
      (h.tracker.gapPending = true ∧ s ≤ h.tracker.gapEnd.toNat + 1))
    (hrec : h.tracker.gapPending = true → rec.Completes S h.tracker) :
    (h.tryRecover rec).Follows S ∧
      s < (h.tryRecover rec).tracker.stats.nextExpected.toNat ∧
      (h.tryRecover rec).tracker.gapPending = false ∧
      ∃ sent, (h.tryRecover rec).requests = h.requests ++ sent ∧
        ∀ r ∈ sent, r.stop.toNat < (h.tryRecover rec).tracker.stats.nextExpected.toNat := by
  cases hpend : h.tracker.gapPending with
  | false =>
    rw [tryRecover_idle rec hpend]
    rw [hpend] at hs
    refine ⟨hf, hs.resolve_right (by simp), hpend, [], (List.append_nil _).symm, ?_⟩
    intro r hr
    cases hr
  | true =>
    have hcomplete := hrec hpend
    cases rec with
    | socketFailed | connectFailed | sendFailed sentNs | headerFailed sentNs =>
      exact absurd hcomplete id
    | answered sentNs resp chunks latencyNs =>
      have hsplit : Splits wireFrames (payloadOf resp chunks) _ :=
        (show payloadOf resp chunks = _ from hcomplete) ▸ splits_flatten Session.range_whole
      have hfollows := hf.tryRecover hn
        (show Recovery.FromSession S (.answered sentNs resp chunks latencyNs) from
          ⟨_, hsplit, Session.range_subset⟩)
      obtain ⟨hbeyond, hkeep⟩ := hf.pushRange hn hpend
      have hle : s ≤ h.tracker.gapEnd.toNat + 1 := by
        have hgap := hf.gap (SequenceTracker.gapPending_iff.mp hpend)
        rcases hs with hlt | ⟨-, hle⟩ <;> omega
      rw [tryRecover_answered hpend, pushPayload_eq hsplit] at hfollows ⊢
      refine ⟨hfollows, ?_, rfl, _, rfl, ?_⟩
      · exact hfollows.delivered (hkeep s hheld) (hle.trans hbeyond)
      · intro r hr
        rw [List.mem_singleton] at hr
        subst hr
        unfold SentRequest.stop encodeGapRequest
        rw [loadBe64_storeBe64]
        exact hbeyond

/-- The frame that was just pushed is delivered, or it is held and the pending gap reaches up to it. -/
theorem Follows.pushOwn (hf : h.Follows S) (hn : S.frames.length < 2 ^ 64 - 1) {f : List UInt8}
    (hmem : f ∈ S.frames) :
    Held (frameSeq f).toNat (h.tracker.push f).1 ∧
      ((frameSeq f).toNat < (h.tracker.push f).1.stats.nextExpected.toNat ∨
        ((h.tracker.push f).1.gapPending = true ∧
          (frameSeq f).toNat ≤ (h.tracker.push f).1.gapEnd.toNat + 1)) := by
  obtain ⟨h20, h44⟩ := Session.frame_size hmem
  have hheld := push_held hf.sound Session.seq_le hn hmem h20 h44
  refine ⟨hheld, ?_⟩
  rcases Nat.lt_or_ge h.tracker.stats.nextExpected.toNat (frameSeq f).toNat with hgt | hle
  · have hpos : h.tracker.stats.nextExpected ≠ 0 := by
      intro hzero
      have hnext := (hf.next hn).2
      rw [hzero, UInt64.toNat_zero] at hnext
      omega
    exact Or.inr (push_early_gap h20 h44 (UInt64.lt_iff_toNat_lt.mpr hgt) hpos)
  · exact Or.inl (push_behind hf.sound Session.seq_le hn hmem h20 h44 hle).1

theorem afterPush_frame {f : List UInt8} (hf : IsFrame f) :
    h.afterPush f = (h.tracker.push f).1 := by
  unfold afterPush
  rw [hf.2, List.take_length]

end FeedHandler

/-! ## Every reachable state -/

/-- What a complete recovery achieves, in every state that datagrams of the session and recoveries
that fail, break off or bring any of its frames can lead to; and what every request ever sent asked
for. -/
def CatchesUp (S : Session) : Prop :=
  ∀ h, Reachable (fun _ bytes rec => S.Datagram bytes ∧ rec.FromSession S) h →
    (∀ r ∈ h.requests, r.Ok S.frames.length) ∧
    ∀ f ∈ S.frames, ∀ rec : Recovery,
      ((h.afterPush f).gapPending = true → rec.Completes S (h.afterPush f)) →
      let h' := h.processDatagram f rec
      (frameSeq f).toNat < h'.tracker.stats.nextExpected.toNat ∧
      (∀ r ∈ h'.requests.drop h.requests.length,
        r.Ok S.frames.length ∧ r.stop.toNat < h'.tracker.stats.nextExpected.toNat) ∧
      h'.tracker.gapPending = false ∧
      h'.handled = S.frames.take (h'.tracker.stats.nextExpected.toNat - 1) ∧
      h'.toOutputs = Outputs.replay h'.handled

/-- **A complete recovery catches up**, in every session that does not wrap the counter. -/
theorem complete_recovery_catches_up (S : Session) (hn : S.frames.length < 2 ^ 64 - 1) :
    CatchesUp S := by
  intro h hr
  obtain ⟨hf, hready⟩ := reachable_follows (fun _ _ _ hcall => hcall) hn hr
  refine ⟨hf.requests, ?_⟩
  intro f hmem rec hrec h'
  obtain ⟨hheld, hown⟩ := hf.pushOwn hn hmem
  rw [← FeedHandler.afterPush_frame (S.whole f hmem)] at hheld hown
  have hpushed : FeedHandler.Follows S { h with tracker := h.afterPush f } := by
    rw [FeedHandler.afterPush_frame (S.whole f hmem)]
    exact hf.push hn hmem
  obtain ⟨hfollows, hlt, hgap, sent, hsent, hstop⟩ := hpushed.recoverComplete hn hheld hown hrec
  obtain ⟨hend, hempty⟩ := hfollows.drain
  have heq : h' = (FeedHandler.tryRecover { h with tracker := h.afterPush f } rec).drain :=
    FeedHandler.processDatagram_accepted rec (S.whole f hmem).1
  rw [heq, FeedHandler.drain_tracker, FeedHandler.drain_requests, hsent, List.drop_left]
  -- clearing `ready()` leaves the counter and the gap as they are
  refine ⟨hlt, ?_, hgap, ?_, hend.outputs⟩
  · intro r hr
    exact ⟨hfollows.requests r (by rw [hsent]; exact List.mem_append_right _ hr), hstop r hr⟩
  · have htake := (hend.handled_eq hempty hn).2.2
    rw [FeedHandler.drain_tracker] at htake
    exact htake

/-- Frame 3 arrives after frame 1 and the server sends frame 2. -/
theorem complete_recovery_catches_up_sample :
    let frames := sampleSession.frames
    let h := FeedHandler.processDatagram {} (frames.getD 0 []) .connectFailed
    let answer := Recovery.answered 40 (encodeGapResponse {} 0 41 2 2 44) [frames.getD 1 []] 6
    3 < (h.processDatagram (frames.getD 2 []) answer).tracker.stats.nextExpected.toNat := by
  intro frames h answer
  have hfirst : sampleSession.Datagram (frames.getD 0 []) :=
    Or.inl ⟨frames.getD 0 [], by decide +kernel, [], (List.append_nil _).symm⟩
  have hreach : Reachable (fun _ bytes rec =>
      sampleSession.Datagram bytes ∧ rec.FromSession sampleSession) h :=
    Reachable.call Reachable.start ⟨hfirst, trivial⟩
  have hmem : frames.getD 2 [] ∈ sampleSession.frames := by decide +kernel
  have hcomplete : answer.Completes sampleSession (h.afterPush (frames.getD 2 [])) := by
    show payloadOf _ _ = _
    decide +kernel
  have hcatch := ((complete_recovery_catches_up sampleSession (by decide) h hreach).2 _ hmem answer
    (fun _ => hcomplete)).1
  have hseq : (frameSeq (frames.getD 2 [])).toNat = 3 := by decide +kernel
  rw [hseq] at hcatch
  exact hcatch

/-! ## The counter wraps after `2^64 - 1` frames -/

theorem isFrame_heartbeatFrame (seq : UInt64) : IsFrame (heartbeatFrame seq) := by
  have hparse := EncodeCall.parse_bytes (.heartbeat {} seq 0 0) []
  rw [List.append_nil] at hparse
  unfold IsFrame heartbeatFrame
  rw [hparse]
  exact ⟨rfl, rfl⟩

/-- The session of `n` heartbeats. -/
def heartbeatSession (n : Nat) (hn : n < 2 ^ 64) : Session where
  frames := inOrder n
  whole := by
    intro f hf
    obtain ⟨j, -, rfl⟩ := List.mem_map.mp hf
    exact isFrame_heartbeatFrame _
  seq := by
    intro i hi
    have hlen : i < n := by
      unfold inOrder at hi
      rwa [List.length_map, List.length_range'] at hi
    have hframe : (inOrder n)[i] = heartbeatFrame (UInt64.ofNat (1 + i)) := by
      simp only [inOrder, List.getElem_map, List.getElem_range', Nat.one_mul]
    have hparse := EncodeCall.parse_bytes (.heartbeat {} (UInt64.ofNat (1 + i)) 0 0) []
    rw [List.append_nil] at hparse
    rw [hframe]
    unfold heartbeatFrame
    rw [hparse]
    show some (UInt64.ofNat (1 + i)).toNat = some (i + 1)
    rw [toNat_ofNat_of_lt (by omega), Nat.add_comm]

/-- The handler after the first `k` heartbeats, each once and in order. -/
def inOrderRun (k : Nat) : FeedHandler :=
  (inOrder k).foldl (fun h f => h.processDatagram f .connectFailed) {}

theorem inOrderRun_succ (k : Nat) :
    inOrderRun (k + 1) = (inOrderRun k).processDatagram (heartbeatFrame (UInt64.ofNat (1 + k)))
      .connectFailed := by
  unfold inOrderRun
  rw [inOrder_succ, List.foldl_append]
  rfl

/-- Nothing is buffered and no gap is pending. -/
def Idle (t : SequenceTracker) : Prop :=
  (∀ i, (t.window i).occupied = false) ∧ t.gapStart = 0

namespace FeedHandler

variable {h : FeedHandler} {f : List UInt8}

/-- An expected frame keeps an idle tracker idle. -/
theorem afterPush_idle (hf : IsFrame f) (hidle : Idle h.tracker)
    (hseq : frameSeq f = h.tracker.stats.nextExpected) :
    (h.afterPush f).stats.nextExpected = h.tracker.stats.nextExpected + 1 ∧ Idle (h.afterPush f) := by
  have hsize := parseMessage_ok_bounds hf.1
  rw [hf.2] at hsize
  obtain ⟨hnext, hwin⟩ := SequenceTracker.push_idle hidle.1 hsize.1 hsize.2.1 hseq
  obtain ⟨-, t', -, -, -, -, hstart, -⟩ := SequenceTracker.push_expected hsize.1 hsize.2.1 hseq
  rw [afterPush_frame hf]
  refine ⟨hnext, ?_, ?_⟩
  · rw [hwin]
    exact hidle.1
  · rw [hstart, hidle.2]
    split_ifs <;> rfl

theorem gapPending_of_idle {t : SequenceTracker} (hidle : Idle t) : t.gapPending = false := by
  unfold SequenceTracker.gapPending
  rw [hidle.2]
  rfl

theorem processDatagram_idle (hf : IsFrame f) (hidle : Idle h.tracker)
    (hseq : frameSeq f = h.tracker.stats.nextExpected) (rec : Recovery) :
    (h.processDatagram f rec).tracker.stats.nextExpected = h.tracker.stats.nextExpected + 1 ∧
      Idle (h.processDatagram f rec).tracker := by
  have hpush := afterPush_idle hf hidle hseq
  rw [processDatagram_accepted rec hf.1, drain_tracker,
    tryRecover_idle rec (gapPending_of_idle hpush.2)]
  exact hpush

end FeedHandler

theorem inOrderRun_idle (k : Nat) :
    (inOrderRun k).tracker.stats.nextExpected = UInt64.ofNat (1 + k) ∧
      Idle (inOrderRun k).tracker := by
  induction k with
  | zero => exact ⟨rfl, fun _ => rfl, rfl⟩
  | succ k ih =>
    obtain ⟨hnext, hidle⟩ := ih
    obtain ⟨hnext', hidle'⟩ := FeedHandler.processDatagram_idle
      (isFrame_heartbeatFrame (UInt64.ofNat (1 + k))) hidle
      ((frameSeq_heartbeatFrame _).trans hnext.symm) .connectFailed
    rw [inOrderRun_succ]
    refine ⟨?_, hidle'⟩
    rw [hnext', hnext, ← Nat.add_assoc, UInt64.ofNat_add (1 + k)]
    rfl

theorem heartbeatFrame_mem {n k : Nat} (hk : k < n) :
    heartbeatFrame (UInt64.ofNat (1 + k)) ∈ inOrder n :=
  List.mem_map.mpr ⟨1 + k, by rw [List.mem_range'_1]; omega, rfl⟩

theorem reachable_inOrderRun {n : Nat} (hn : n < 2 ^ 64) {k : Nat} (hk : k ≤ n) :
    Reachable (fun _ bytes rec => (heartbeatSession n hn).Datagram bytes ∧
      rec.FromSession (heartbeatSession n hn)) (inOrderRun k) := by
  induction k with
  | zero => exact .start
  | succ k ih =>
    rw [inOrderRun_succ]
    refine .call (ih (by omega)) ⟨Or.inl ⟨_, heartbeatFrame_mem hk, [], ?_⟩, trivial⟩
    rw [List.append_nil]

/-- The last frame of a session that uses all the numbers takes the counter from `2^64 - 1` to 0. -/
theorem not_catchesUp_of_wrap {n : Nat} (hn : n < 2 ^ 64) (hwrap : n = 2 ^ 64 - 1) :
    ¬ CatchesUp (heartbeatSession n hn) := by
  intro hcatch
  obtain ⟨hnext, hidle⟩ := inOrderRun_idle (n - 1)
  have hlast : 1 + (n - 1) = n := by omega
  have hmem : heartbeatFrame (UInt64.ofNat n) ∈ inOrder n := by
    have h := heartbeatFrame_mem (show n - 1 < n by omega)
    rwa [hlast] at h
  rw [hlast] at hnext
  have hseq : frameSeq (heartbeatFrame (UInt64.ofNat n))
      = (inOrderRun (n - 1)).tracker.stats.nextExpected := by
    rw [frameSeq_heartbeatFrame, hnext]
  have hquiet := FeedHandler.gapPending_of_idle
    (FeedHandler.afterPush_idle (isFrame_heartbeatFrame _) hidle hseq).2
  have hpast := ((hcatch _ (reachable_inOrderRun hn (Nat.sub_le n 1))).2 _ hmem .connectFailed
    (fun hpend => by rw [hquiet] at hpend; cases hpend)).1
  have hzero : UInt64.ofNat n + 1 = 0 := by
    rw [hwrap]
    decide
  rw [(FeedHandler.processDatagram_idle (isFrame_heartbeatFrame _) hidle hseq _).1, hnext,
    hzero] at hpast
  exact absurd hpast (Nat.not_lt_zero _)

/-- **At the wrap the handler does not catch up.** -/
theorem catch_up_fails_at_wrap : ¬ CatchesUp (heartbeatSession (2 ^ 64 - 1) (by decide)) :=
  not_catchesUp_of_wrap _ rfl

end MarketDataPipeline.Feed
