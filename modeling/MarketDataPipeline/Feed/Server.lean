/-
# MarketDataPipeline.Feed.Server — the answer of the recovery server.

`servePass` is the body of the loop of `run_recovery_server` that collects the requested frames.  The
counter and its bound are 64-bit values, the bound is the request's `end_seq`, and the comparison is
inclusive: no counter value lies past the largest bound.  Below that bound the loop stops and collects
the frames of the range, each once and in order; a start of 0 or an end behind the session does no
harm.

On the handler's side a payload arrives whole in whatever pieces the stream brings it
(`receivePayload_flatten`).
-/
import MarketDataPipeline.Feed.CatchUp

namespace MarketDataPipeline.Feed

open MarketDataPipeline.Library.Loop
open MarketDataPipeline.Wire
open MarketDataPipeline.Sequence

/-! ## The server -/

/-- One pass of `for (uint64_t s = start; s <= end; ++s)`, with the payload built so far. -/
def servePass (session : List (List UInt8)) (stop : UInt64) (st : UInt64 × List UInt8) :
    Pass (UInt64 × List UInt8) (List UInt8) :=
  if st.1 ≤ stop then
    -- `continue` goes on with the next number
    if st.1 = 0 ∨ session.length < st.1.toNat then .again (st.1 + 1, st.2)
    else .again (st.1 + 1, st.2 ++ session.getD (st.1 - 1).toNat [])
  else .done st.2

/-- The payload for a request, if the loop leaves within the given number of passes. -/
def servePayload (session : List (List UInt8)) (req : WireGapRequest) (passes : Nat) :
    Option (List UInt8) :=
  iterate (servePass session (loadBe64 req.endSeq)) passes (loadBe64 req.startSeq, [])

/-- The header that is sent in front of the payload. -/
def serveHeader (req : WireGapRequest) (nowNs : UInt64) (payload : List UInt8) : WireGapResponse :=
  encodeGapResponse {} 0 nowNs (loadBe64 req.startSeq) (loadBe64 req.endSeq)
    (UInt32.ofNat payload.length)

/-! ## The requested frames -/

/-- The frames whose index, counted from 1, lies between `lo` and `hi`. -/
def requested (session : List (List UInt8)) (lo hi : Nat) : List (List UInt8) :=
  ((session.zipIdx 1).filter fun p => decide (lo ≤ p.2 ∧ p.2 ≤ hi)).map Prod.fst

theorem filter_zipIdx {α : Type} (xs : List α) (k lo hi : Nat) :
    ((xs.zipIdx k).filter fun p => decide (lo ≤ p.2 ∧ p.2 ≤ hi)).map Prod.fst
      = (xs.drop (lo - k)).take (hi + 1 - max lo k) := by
  induction xs generalizing k with
  | nil => simp
  | cons x xs ih =>
    have ih := ih (k + 1)
    rw [List.zipIdx_cons, List.filter_cons]
    by_cases hlo : lo ≤ k
    · rw [Nat.sub_eq_zero_of_le hlo, Nat.max_eq_right hlo, List.drop_zero]
      have hnext : lo ≤ k + 1 := Nat.le_succ_of_le hlo
      rw [Nat.sub_eq_zero_of_le hnext, Nat.max_eq_right hnext, List.drop_zero] at ih
      by_cases hhi : k ≤ hi
      · rw [if_pos (decide_eq_true ⟨hlo, hhi⟩), List.map_cons, ih,
          show hi + 1 - k = (hi + 1 - (k + 1)) + 1 by omega, List.take_succ_cons]
      · rw [if_neg (by simp only [decide_eq_true_eq]; omega), ih,
          show hi + 1 - k = 0 by omega, show hi + 1 - (k + 1) = 0 by omega, List.take_zero,
          List.take_zero]
    · rw [if_neg (by simp only [decide_eq_true_eq]; omega), ih,
        show lo - k = (lo - (k + 1)) + 1 by omega, List.drop_succ_cons,
        show max lo (k + 1) = max lo k by omega]

theorem requested_eq (session : List (List UInt8)) (lo hi : Nat) :
    requested session lo hi = (session.drop (lo - 1)).take (hi + 1 - max lo 1) :=
  filter_zipIdx session 1 lo hi

theorem requested_empty {session : List (List UInt8)} {lo hi : Nat} (h : hi < lo) :
    requested session lo hi = [] := by
  rw [requested_eq, show hi + 1 - max lo 1 = 0 by omega, List.take_zero]

/-- The lowest number of the range, and the rest. -/
theorem requested_step {session : List (List UInt8)} {lo hi : Nat} (h : lo ≤ hi) :
    requested session lo hi =
      (if lo = 0 ∨ session.length < lo then [] else [session.getD (lo - 1) []])
        ++ requested session (lo + 1) hi := by
  rw [requested_eq, requested_eq]
  split_ifs with hout
  · rw [List.nil_append]
    rcases hout with rfl | hout
    · rfl
    · rw [List.drop_eq_nil_of_le (by omega), List.drop_eq_nil_of_le (by omega), List.take_nil,
        List.take_nil]
  · rw [not_or, Nat.not_lt] at hout
    have hlt : lo - 1 < session.length := by omega
    rw [List.drop_eq_getElem_cons hlt, show hi + 1 - max lo 1 = (hi + 1 - max (lo + 1) 1) + 1 by omega,
      List.take_succ_cons, show lo - 1 + 1 = lo + 1 - 1 by omega,
      List.getD_eq_getElem _ _ hlt]
    rfl

/-! ## The loop -/

theorem servePass_done {session : List (List UInt8)} {stop : UInt64} {st : UInt64 × List UInt8}
    (h : ¬ st.1 ≤ stop) : servePass session stop st = .done st.2 := by
  unfold servePass
  rw [if_neg h]

theorem servePass_again {session : List (List UInt8)} {stop : UInt64} {st : UInt64 × List UInt8}
    (h : st.1 ≤ stop) :
    servePass session stop st = .again (st.1 + 1, st.2 ++
      (if st.1.toNat = 0 ∨ session.length < st.1.toNat then []
        else [session.getD (st.1.toNat - 1) []]).flatten) := by
  have hzero : st.1 = 0 ↔ st.1.toNat = 0 := UInt64.toNat_inj.symm
  unfold servePass
  rw [if_pos h]
  simp only [hzero]
  split_ifs with hskip
  · rw [List.flatten_nil, List.append_nil]
  · have hpred : (st.1 - 1).toNat = st.1.toNat - 1 := by
      have hone : (1 : UInt64) ≤ st.1 := by
        rw [UInt64.le_iff_toNat_le, UInt64.toNat_one]
        omega
      rw [UInt64.toNat_sub_of_le _ _ hone, UInt64.toNat_one]
    rw [hpred, List.flatten_singleton]

theorem toNat_succ_of_le {s stop : UInt64} (hle : s ≤ stop) (h : stop ≠ 18446744073709551615) :
    (s + 1).toNat = s.toNat + 1 := by
  have hne : stop.toNat ≠ 18446744073709551615 := fun heq => h (UInt64.toNat_inj.mp heq)
  have hlt := stop.toNat_lt
  rw [UInt64.le_iff_toNat_le] at hle
  rw [UInt64.toNat_add, UInt64.toNat_one]
  omega

theorem servePass_variant (session : List (List UInt8)) {stop : UInt64}
    (h : stop ≠ 18446744073709551615) :
    Variant (servePass session stop) (fun st => stop.toNat + 1 - st.1.toNat) := by
  intro st st' hpass
  by_cases hle : st.1 ≤ stop
  · rw [servePass_again hle] at hpass
    cases hpass
    dsimp only
    rw [toNat_succ_of_le hle h]
    rw [UInt64.le_iff_toNat_le] at hle
    omega
  · rw [servePass_done hle] at hpass
    cases hpass

/-- What the loop adds to the payload. -/
theorem servePass_run {session : List (List UInt8)} {stop : UInt64}
    (h : stop ≠ 18446744073709551615) (st : UInt64 × List UInt8) :
    run (servePass session stop) _ (servePass_variant session h) st
      = st.2 ++ (requested session st.1.toNat stop.toNat).flatten := by
  refine run_induction (motive := fun st r =>
    r = st.2 ++ (requested session st.1.toNat stop.toNat).flatten) ?_ ?_ st
  · intro st r hpass
    by_cases hle : st.1 ≤ stop
    · rw [servePass_again hle] at hpass
      cases hpass
    · rw [servePass_done hle] at hpass
      cases hpass
      rw [UInt64.le_iff_toNat_le, Nat.not_le] at hle
      rw [requested_empty hle, List.flatten_nil, List.append_nil]
  · intro st st' r hpass ih
    by_cases hle : st.1 ≤ stop
    · rw [servePass_again hle] at hpass
      cases hpass
      dsimp only at ih
      rw [ih, toNat_succ_of_le hle h, requested_step (UInt64.le_iff_toNat_le.mp hle),
        List.flatten_append, List.append_assoc]
    · rw [servePass_done hle] at hpass
      cases hpass

/-- With the largest bound every pass goes round again. -/
theorem servePass_max (session : List (List UInt8)) (passes : Nat) (st : UInt64 × List UInt8) :
    iterate (servePass session 18446744073709551615) passes st = none := by
  refine iterate_eq_none (I := fun _ => True) (fun st _ => ?_) trivial passes
  have hle : st.1 ≤ 18446744073709551615 := by
    rw [UInt64.le_iff_toNat_le]
    exact Nat.le_of_lt_succ st.1.toNat_lt
  exact ⟨_, servePass_again hle, trivial⟩

/-- A payload that is built is the requested one, and then the bound was not the largest. -/
theorem servePayload_eq {session : List (List UInt8)} {req : WireGapRequest} {passes : Nat}
    {payload : List UInt8} (h : servePayload session req passes = some payload) :
    loadBe64 req.endSeq ≠ 18446744073709551615 ∧
      payload = (requested session (loadBe64 req.startSeq).toNat
        (loadBe64 req.endSeq).toNat).flatten := by
  unfold servePayload at h
  have hne : loadBe64 req.endSeq ≠ 18446744073709551615 := by
    intro hmax
    rw [hmax, servePass_max] at h
    cases h
  refine ⟨hne, ?_⟩
  rw [iterate_unique h (iterate_eq_run (servePass_variant session hne) _), servePass_run hne,
    List.nil_append]

/-- **The server answers a request, with exactly the frames asked for, unless `end_seq` is 2^64 - 1.**
For that one value the counter wraps to 0 behind its last pass and the loop never leaves. -/
theorem recovery_server_answers (session : List (List UInt8)) (req : WireGapRequest) :
    (∃ passes payload, servePayload session req passes = some payload ∧
        payload = (requested session (loadBe64 req.startSeq).toNat
          (loadBe64 req.endSeq).toNat).flatten) ↔
      loadBe64 req.endSeq ≠ 18446744073709551615 := by
  constructor
  · rintro ⟨passes, payload, hserve, -⟩
    exact (servePayload_eq hserve).1
  · intro hne
    have hserve := iterate_eq_run (servePass_variant session hne)
      (loadBe64 req.startSeq, [])
    exact ⟨_, _, hserve, (servePayload_eq hserve).2⟩

/-- A request for everything from frame 1 on. -/
def openEndedRequest : WireGapRequest := encodeGapRequest {} 0 0 1 18446744073709551615

/-- A session of one heartbeat. -/
def oneHeartbeat : List (List UInt8) := [WireHeartbeat.image.put (encodeHeartbeat {} 1 10 10)]

theorem open_ended_request_hangs :
    ¬ ∃ passes payload, servePayload oneHeartbeat openEndedRequest passes = some payload := by
  rintro ⟨passes, payload, hserve⟩
  exact (servePayload_eq hserve).1 (by decide)

/-! ## The handler's side of the stream -/

/-- Pieces that together are as long as announced arrive whole. -/
theorem receivePayload_flatten {chunks : List (List UInt8)} (hne : ∀ c ∈ chunks, c ≠ [])
    {nbytes : Nat} (got : List UInt8) (hlen : got.length + chunks.flatten.length = nbytes) :
    receivePayload nbytes got chunks = got ++ chunks.flatten := by
  induction chunks generalizing got with
  | nil =>
    rw [List.flatten_nil, List.append_nil]
    rfl
  | cons chunk rest ih =>
    have hchunk : chunk ≠ [] := hne chunk List.mem_cons_self
    have hpos := List.length_pos_iff.mpr hchunk
    rw [List.flatten_cons, List.length_append] at hlen
    have hwhole : chunk.take (nbytes - got.length) = chunk := List.take_of_length_le (by omega)
    show (if got.length < nbytes then _ else _) = _
    rw [if_pos (by omega), if_neg hchunk, hwhole,
      ih (fun c hc => hne c (List.mem_cons_of_mem _ hc)) _ (by rw [List.length_append]; omega),
      List.flatten_cons, List.append_assoc]

end MarketDataPipeline.Feed
