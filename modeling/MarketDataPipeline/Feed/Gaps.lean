/-
# MarketDataPipeline.Feed.Gaps — which missing numbers can still be requested.

The tracker keeps one interval of numbers that it will ask the recovery server for.  `Requestable` is
what that interval is for: every number between `next_expected` and the largest one seen is in the
window or in the interval.

In every run the interval ends right below the largest number pushed so far, and without an interval
the counter has come up to that number (`GapTracks`).  So the one number that can fall outside is the
largest itself, once a smaller number has thrown its frame out of the window: `EvictsLargest` is the
exact condition under which a push breaks the property.

An answered recovery attempt drops the interval whatever the answer was.  `Recovery.Fills` says when
that is harmless, in terms of the numbers alone: `NumberWindow` is the window without its bytes.
-/
import MarketDataPipeline.Feed.CatchUp

namespace MarketDataPipeline.Feed

open MarketDataPipeline.Library.Framing
open MarketDataPipeline.Wire
open MarketDataPipeline.Sequence

/-! ## Missing numbers -/

/-- The frame with this number is in the window. -/
def Buffers (t : SequenceTracker) (s : UInt64) : Prop :=
  ∃ i, (t.window i).occupied = true ∧ (t.window i).seq = s

/-- Every number from `next_expected` to `largest` is in the window or in the pending gap. -/
def Requestable (t : SequenceTracker) (largest : Nat) : Prop :=
  ∀ s : UInt64, t.stats.nextExpected ≤ s → s.toNat ≤ largest → ¬ Buffers t s →
    t.gapPending = true ∧ t.gapStart ≤ s ∧ s ≤ t.gapEnd

/-- The largest number of a frame that `push` has read so far, 0 if there is none. -/
def largestPushed (ops : List TrackerOp) : Nat :=
  ops.foldl (fun largest op =>
    match op with
    | .push framed =>
      if 20 ≤ framed.length ∧ framed.length ≤ 44 then max largest (frameSeq framed).toNat
      else largest
    | _ => largest) 0

/-- An early frame whose slot is taken by the frame with the largest number, which is not its own. -/
def EvictsLargest (t : SequenceTracker) (largest : Nat) (framed : List UInt8) : Prop :=
  20 ≤ framed.length ∧ framed.length ≤ 44 ∧ t.stats.nextExpected < frameSeq framed ∧
    (frameSeq framed).toNat < largest ∧
    (t.window (slotIndex (frameSeq framed))).occupied = true ∧
    (t.window (slotIndex (frameSeq framed))).seq.toNat = largest

/-! ## The interval and the largest number -/

/-- A pending gap ends right below the largest number; without one the counter has reached it. -/
structure GapTracks (largest : Nat) (t : SequenceTracker) : Prop where
  pending : t.gapStart ≠ 0 → t.gapStart.toNat ≤ t.stats.nextExpected.toNat ∧
    t.stats.nextExpected.toNat ≤ t.gapEnd.toNat ∧ t.gapEnd.toNat + 1 = largest
  idle : t.gapStart = 0 → largest ≤ t.stats.nextExpected.toNat

variable {largest : Nat} {t : SequenceTracker} {f : List UInt8}

/-- **What is requestable**: everything, unless the frame with the largest number has been lost. -/
theorem requestable_iff (hg : GapTracks largest t) (hbound : largest < 2 ^ 64) :
    Requestable t largest ↔ Held largest t := by
  constructor
  · intro h
    by_contra hlost
    unfold Held at hlost
    rw [not_or, Nat.not_lt] at hlost
    obtain ⟨hle, hnot⟩ := hlost
    have hval : (UInt64.ofNat largest).toNat = largest := toNat_ofNat_of_lt hbound
    obtain ⟨hpend, -, hend⟩ := h (UInt64.ofNat largest)
      (by rw [UInt64.le_iff_toNat_le, hval]; exact hle) (Nat.le_of_eq hval)
      (fun ⟨i, hi, hseq⟩ => hnot ⟨i, hi, by rw [hseq, hval]⟩)
    obtain ⟨-, -, hlast⟩ := hg.pending (SequenceTracker.gapPending_iff.mp hpend)
    rw [UInt64.le_iff_toNat_le, hval] at hend
    omega
  · intro h s hnext hs hnot
    rw [UInt64.le_iff_toNat_le] at hnext
    -- the largest number itself is in the window, so `s` is a smaller one
    have hlt : s.toNat < largest := by
      rcases h with hbehind | ⟨i, hi, hseq⟩
      · omega
      · refine Nat.lt_of_le_of_ne hs fun heq => hnot ⟨i, hi, ?_⟩
        exact UInt64.toNat_inj.mp (hseq.trans heq.symm)
    have hpend : t.gapStart ≠ 0 := by
      intro h0
      have hidle := hg.idle h0
      omega
    obtain ⟨hstart, -, hend⟩ := hg.pending hpend
    rw [SequenceTracker.gapPending_iff, UInt64.le_iff_toNat_le, UInt64.le_iff_toNat_le]
    exact ⟨hpend, by omega, by omega⟩

theorem gapTracks_init : GapTracks 0 {} where
  pending := fun h => absurd rfl h
  idle := fun _ => Nat.zero_le _

/-- A frame that does not fit is not read. -/
theorem push_wrong_size (hsize : ¬ (20 ≤ f.length ∧ f.length ≤ 44)) : t.push f = (t, false) := by
  rcases SequenceTracker.push_cases t f with ⟨-, heq⟩ | ⟨h20, h44, -⟩
  · exact heq
  · exact absurd ⟨h20, h44⟩ hsize

section Push

variable {n : Nat} {P : List UInt8 → Prop} {r : TrackerRun}

/-- The next number arrives: the gap closes once the counter is past it. -/
theorem GapTracks.push_expected (hg : GapTracks largest t) (h20 : 20 ≤ f.length)
    (h44 : f.length ≤ 44) (hexp : frameSeq f = t.stats.nextExpected)
    (hmono : t.stats.nextExpected.toNat ≤ (t.push f).1.stats.nextExpected.toNat) :
    GapTracks (max largest (frameSeq f).toNat) (t.push f).1 := by
  obtain ⟨out, t', hflush, -, -, hstats, hgs, hge⟩ := SequenceTracker.push_expected h20 h44 hexp
  have hstart : t'.gapStart = t.gapStart := hflush.gap.1
  have hend : t'.gapEnd = t.gapEnd := hflush.gap.2
  rw [hstart, hend] at hgs hge
  have hseq : (frameSeq f).toNat = t.stats.nextExpected.toNat := by rw [hexp]
  rw [hstats] at hmono
  constructor
  · intro hpend
    rw [hgs] at hpend ⊢
    rw [hge, hstats]
    split_ifs at hpend ⊢ with hclear
    · exact absurd rfl hpend
    · obtain ⟨h1, h2, h3⟩ := hg.pending hpend
      have hns : ¬ t.gapEnd < t'.stats.nextExpected := fun hlt => hclear ⟨hpend, hlt⟩
      rw [UInt64.lt_iff_toNat_lt] at hns
      omega
  · intro h0
    rw [hgs] at h0
    rw [hstats]
    by_cases hpend : t.gapStart = 0
    · have hidle := hg.idle hpend
      omega
    · -- the gap has just been closed, so the counter is past it
      obtain ⟨h1, h2, h3⟩ := hg.pending hpend
      have hclear : t.gapEnd < t'.stats.nextExpected := by
        by_contra hns
        rw [if_neg fun hall => hns hall.2] at h0
        exact hpend h0
      rw [UInt64.lt_iff_toNat_lt] at hclear
      omega

/-- An early number opens the gap or moves its end. -/
theorem GapTracks.push_early (hg : GapTracks largest t) (hpos : t.stats.nextExpected ≠ 0)
    (hgt : t.stats.nextExpected < frameSeq f) :
    GapTracks (max largest (frameSeq f).toNat) (t.buffer f) := by
  have hpred := SequenceTracker.toNat_pos_of_lt hgt
  obtain ⟨hgs, hge⟩ := SequenceTracker.buffer_gap t f
  rw [UInt64.lt_iff_toNat_lt] at hgt
  constructor
  · intro _
    rw [hgs, hge, SequenceTracker.buffer_nextExpected]
    by_cases h0 : t.gapStart = 0
    · have hidle := hg.idle h0
      rw [if_pos h0, if_pos (Or.inl h0)]
      omega
    · obtain ⟨h1, h2, h3⟩ := hg.pending h0
      rw [if_neg h0]
      split_ifs with hgrow
      · have hlt := hgrow.resolve_left h0
        rw [UInt64.lt_iff_toNat_lt] at hlt
        omega
      · rw [not_or, UInt64.lt_iff_toNat_lt] at hgrow
        omega
  · intro h0
    rw [hgs] at h0
    split_ifs at h0 with hs
    · exact absurd h0 hpos
    · exact absurd h0 hs

/-- The step: one push of a frame that the tracker reads. -/
theorem GapTracks.push (hg : GapTracks largest r.tracker) (h : r.Sound P)
    (hP : ∀ f, P f → (frameSeq f).toNat ≤ n) (hn : n < 2 ^ 64 - 1) (hf : P f)
    (h20 : 20 ≤ f.length) (h44 : f.length ≤ 44) :
    GapTracks (max largest (frameSeq f).toNat) (r.tracker.push f).1 := by
  have hmono := h.push_mono hP hn hf
  rcases SequenceTracker.push_cases r.tracker f with ⟨hbad, -⟩ | ⟨-, -, hcase⟩
  · exact absurd ⟨h20, h44⟩ hbad
  rcases hcase with ⟨hexp, -⟩ | ⟨hlt, heq⟩ | ⟨hgt, heq⟩
  · exact hg.push_expected h20 h44 hexp hmono
  · -- a late frame: only a counter moves, and the number is below the largest already
    rw [UInt64.lt_iff_toNat_lt] at hlt
    rw [heq]
    constructor
    · intro hpend
      obtain ⟨h1, h2, h3⟩ := hg.pending hpend
      dsimp only
      omega
    · intro h0
      have hidle := hg.idle h0
      dsimp only
      omega
  · rw [heq]
    refine hg.push_early ?_ hgt
    intro h0
    have hnext := (h.next_toNat hP hn).2
    rw [h0] at hnext
    exact absurd hnext (by rw [show (0 : UInt64).toNat = 0 from rfl]; omega)

/-- An early frame leaves the frame with another number in the window, unless it takes its slot. -/
theorem buffered_push_early {k : Nat} (h : r.Sound P) (h20 : 20 ≤ f.length) (h44 : f.length ≤ 44)
    (hne : (frameSeq f).toNat ≠ k)
    (hin : ∃ i, (r.tracker.window i).occupied = true ∧ (r.tracker.window i).seq.toNat = k) :
    (∃ i, ((r.tracker.buffer f).window i).occupied = true ∧
        ((r.tracker.buffer f).window i).seq.toNat = k) ↔
      ¬ ((r.tracker.window (slotIndex (frameSeq f))).occupied = true ∧
        (r.tracker.window (slotIndex (frameSeq f))).seq.toNat = k) := by
  rw [SequenceTracker.buffer_window r.tracker f]
  constructor
  · rintro ⟨j, hj, hseq⟩ ⟨hocc, hwas⟩
    have hother : ¬ ((r.tracker.window (slotIndex (frameSeq f))).occupied &&
        (r.tracker.window (slotIndex (frameSeq f))).seq == frameSeq f) = true := by
      intro hdup
      have hsame := beq_iff_eq.mp (Bool.and_eq_true_iff.mp hdup).2
      rw [hsame] at hwas
      exact hne hwas
    rw [if_neg hother] at hj hseq
    by_cases hidx : j = slotIndex (frameSeq f)
    · -- the slot now holds the frame just pushed
      rw [hidx, Function.update_self, (SequenceTracker.stored_slot h20 h44 _).2.2.1] at hseq
      exact hne hseq
    · -- and no other slot can hold the same number
      rw [Function.update_of_ne hidx] at hj hseq
      have hslot := (h.settled j hj).2.2.1
      have hslot' := (h.settled _ hocc).2.2.1
      rw [UInt64.toNat_inj.mp (hseq.trans hwas.symm), hslot'] at hslot
      exact hidx hslot.symm
  · intro hno
    obtain ⟨i, hi, hseq⟩ := hin
    have hidx : i ≠ slotIndex (frameSeq f) := by
      rintro rfl
      exact hno ⟨hi, hseq⟩
    refine ⟨i, ?_⟩
    split_ifs
    · exact ⟨hi, hseq⟩
    · rw [Function.update_of_ne hidx]
      exact ⟨hi, hseq⟩

/-- A push loses the largest number exactly if it evicts it. -/
theorem push_held_largest (h : r.Sound P)
    (hP : ∀ f, P f → (frameSeq f).toNat ≤ n) (hn : n < 2 ^ 64 - 1) (hf : P f)
    (h20 : 20 ≤ f.length) (h44 : f.length ≤ 44) (hheld : Held largest r.tracker) :
    Held (max largest (frameSeq f).toNat) (r.tracker.push f).1 ↔
      ¬ EvictsLargest r.tracker largest f := by
  rcases Nat.lt_or_ge (frameSeq f).toNat largest with hsmall | hlarge
  swap
  · -- the pushed frame is now the one with the largest number
    rw [Nat.max_eq_right hlarge]
    refine iff_of_true (push_held h hP hn hf h20 h44) ?_
    rintro ⟨-, -, -, hlt, -⟩
    omega
  rw [Nat.max_eq_left (Nat.le_of_lt hsmall)]
  rcases Nat.lt_or_ge r.tracker.stats.nextExpected.toNat (frameSeq f).toNat with hgt | hle
  swap
  · refine iff_of_true ((push_behind h hP hn hf h20 h44 hle).2 largest hheld) ?_
    rintro ⟨-, -, hgt, -⟩
    rw [UInt64.lt_iff_toNat_lt] at hgt
    omega
  -- an early frame below the largest one, which is therefore in the window
  have hearly := UInt64.lt_iff_toNat_lt.mpr hgt
  have hahead : ¬ largest < r.tracker.stats.nextExpected.toNat := by omega
  unfold Held at hheld ⊢
  rw [SequenceTracker.push_of_early h20 h44 hearly, SequenceTracker.buffer_nextExpected,
    or_iff_right hahead,
    buffered_push_early h h20 h44 (Nat.ne_of_lt hsmall) (hheld.resolve_left hahead), not_iff_not]
  exact ⟨fun hat => ⟨h20, h44, hearly, hsmall, hat⟩, fun hev => hev.2.2.2.2⟩

end Push

/-! ## Runs of pushes -/

theorem largestPushed_snoc (pre : List TrackerOp) (op : TrackerOp) :
    largestPushed (pre ++ [op]) =
      match op with
      | .push framed =>
        if 20 ≤ framed.length ∧ framed.length ≤ 44 then
          max (largestPushed pre) (frameSeq framed).toNat
        else largestPushed pre
      | _ => largestPushed pre := by
  unfold largestPushed
  rw [List.foldl_append]
  rfl

/-- The calls of a run: no external `clear_gap`, numbers below the wrap. -/
structure PushRun (ops : List TrackerOp) : Prop where
  gap : ∀ op ∈ ops, op ≠ .clearGap
  number : ∀ f, TrackerOp.push f ∈ ops → (frameSeq f).toNat < 2 ^ 64 - 1

theorem PushRun.init {pre : List TrackerOp} {op : TrackerOp} (h : PushRun (pre ++ [op])) :
    PushRun pre :=
  ⟨fun x hx => h.gap x (List.mem_append_left _ hx),
    fun f hf => h.number f (List.mem_append_left _ hf)⟩

theorem PushRun.sound {ops : List TrackerOp} (h : PushRun ops) :
    (runOps ops).Sound fun f => (frameSeq f).toNat ≤ 2 ^ 64 - 2 :=
  runOps_sound_of ops fun f hf => Nat.le_sub_one_of_lt (h.number f hf)

/-- The interval and the largest number in every run. -/
theorem PushRun.gapTracks {ops : List TrackerOp} (h : PushRun ops) :
    GapTracks (largestPushed ops) (runOps ops).tracker ∧ largestPushed ops < 2 ^ 64 := by
  induction ops using List.reverseRecOn with
  | nil => exact ⟨gapTracks_init, Nat.two_pow_pos 64⟩
  | append_singleton pre op ih =>
    obtain ⟨hg, hbound⟩ := ih h.init
    rw [runOps_snoc, largestPushed_snoc]
    cases op with
    | push f =>
      have hnum := h.number f (List.mem_append_right _ (List.mem_singleton_self _))
      dsimp only
      split_ifs with hsize
      · exact ⟨hg.push h.init.sound (fun _ hf => hf) (by decide) (Nat.le_sub_one_of_lt hnum)
          hsize.1 hsize.2, by omega⟩
      · refine ⟨?_, hbound⟩
        show GapTracks _ ((runOps pre).tracker.push f).1
        rw [push_wrong_size hsize]
        exact hg
    | clearReady => exact ⟨⟨hg.pending, hg.idle⟩, hbound⟩
    | noteRecovery latencyNs => exact ⟨⟨hg.pending, hg.idle⟩, hbound⟩
    | clearGap => exact absurd rfl (h.gap _ (List.mem_append_right _ (List.mem_singleton_self _)))

/-- One more call keeps the largest number held exactly if it does not evict it. -/
theorem PushRun.held_snoc {pre : List TrackerOp} {op : TrackerOp} (h : PushRun (pre ++ [op]))
    (hheld : Held (largestPushed pre) (runOps pre).tracker) :
    Held (largestPushed (pre ++ [op])) (runOps (pre ++ [op])).tracker ↔
      ∀ f, op = .push f → ¬ EvictsLargest (runOps pre).tracker (largestPushed pre) f := by
  rw [runOps_snoc, largestPushed_snoc]
  cases op with
  | push f =>
    have hnum := h.number f (List.mem_append_right _ (List.mem_singleton_self _))
    dsimp only
    split_ifs with hsize
    · have hstep := push_held_largest h.init.sound (fun _ hf => hf) (by decide)
        (Nat.le_sub_one_of_lt hnum) hsize.1 hsize.2 hheld
      refine ⟨?_, fun hall => hstep.mpr (hall f rfl)⟩
      rintro hafter g hg
      obtain rfl := TrackerOp.push.inj hg
      exact hstep.mp hafter
    · refine iff_of_true ?_ ?_
      · show Held _ ((runOps pre).tracker.push f).1
        rw [push_wrong_size hsize]
        exact hheld
      · rintro g hg ⟨h20, h44, -⟩
        obtain rfl := TrackerOp.push.inj hg
        exact hsize ⟨h20, h44⟩
  | clearReady | noteRecovery latencyNs => exact iff_of_true hheld (fun f hf => by cases hf)
  | clearGap => exact absurd rfl (h.gap _ (List.mem_append_right _ (List.mem_singleton_self _)))

/-- **Missing numbers stay requestable, up to the eviction of the largest.** After every call of a run
all numbers that are missing below the largest one are in the pending gap, if and only if no push of a
smaller number found the frame with the largest number in its slot. -/
theorem missing_numbers_requestable (ops : List TrackerOp) (hrun : PushRun ops) :
    (∀ pre, pre <+: ops → Requestable (runOps pre).tracker (largestPushed pre)) ↔
      ∀ pre f post, ops = pre ++ .push f :: post →
        ¬ EvictsLargest (runOps pre).tracker (largestPushed pre) f := by
  have hinit : ∀ {pre}, pre <+: ops → PushRun pre := by
    rintro pre ⟨post, rfl⟩
    exact ⟨fun x hx => hrun.gap x (List.mem_append_left _ hx),
      fun f hf => hrun.number f (List.mem_append_left _ hf)⟩
  have hiff : ∀ {pre}, pre <+: ops →
      (Requestable (runOps pre).tracker (largestPushed pre) ↔
        Held (largestPushed pre) (runOps pre).tracker) := by
    intro pre hpre
    obtain ⟨hg, hbound⟩ := (hinit hpre).gapTracks
    exact requestable_iff hg hbound
  constructor
  · intro hall pre f post hops
    have hpre : pre <+: ops := ⟨_, hops.symm⟩
    have hnext : pre ++ [.push f] <+: ops := ⟨post, by rw [hops]; simp⟩
    exact ((hinit hnext).held_snoc ((hiff hpre).mp (hall pre hpre))).mp
      ((hiff hnext).mp (hall _ hnext)) f rfl
  · intro hnone pre
    induction pre using List.reverseRecOn with
    | nil => exact fun hpre => (hiff hpre).mpr (Or.inl (by decide))
    | append_singleton pre op ih =>
      intro hnext
      have hpre : pre <+: ops := (List.prefix_append pre [op]).trans hnext
      refine (hiff hnext).mpr (((hinit hnext).held_snoc ((hiff hpre).mp (ih hpre))).mpr ?_)
      rintro f rfl
      obtain ⟨post, hops⟩ := hnext
      exact hnone pre f post (by rw [← hops]; simp)

/-- Two early frames that do not meet. -/
def twoEarly : List TrackerOp := [.push (heartbeatFrame 3), .push (heartbeatFrame 2)]

theorem missing_numbers_requestable_early :
    Requestable (runOps twoEarly).tracker 3 ∧ largestPushed twoEarly = 3 := by
  have hrun : PushRun twoEarly := by
    refine ⟨?_, ?_⟩
    · intro op hop
      simp only [twoEarly, List.mem_cons, List.not_mem_nil, or_false] at hop
      rcases hop with rfl | rfl <;> exact fun h => by cases h
    · intro f hf
      simp only [twoEarly, List.mem_cons, List.not_mem_nil, or_false, TrackerOp.push.injEq] at hf
      rcases hf with rfl | rfl <;> rw [frameSeq_heartbeatFrame] <;> decide
  have hlargest : largestPushed twoEarly = 3 := by decide +kernel
  have h := (missing_numbers_requestable twoEarly hrun).mpr ?_ twoEarly (List.prefix_refl _)
  · rw [hlargest] at h
    exact ⟨h, hlargest⟩
  · rintro pre f post hops ⟨-, -, -, hlt, hocc, hseq⟩
    have htake : pre = twoEarly.take pre.length := by rw [hops, List.take_left]
    have hget : twoEarly[pre.length]? = some (.push f) := by rw [hops]; simp
    have hlen : pre.length < 2 := (List.getElem?_eq_some_iff.mp hget).1
    obtain h0 | h1 : pre.length = 0 ∨ pre.length = 1 := by omega
    · rw [htake, h0] at hlt
      exact Nat.not_lt_zero _ hlt
    · rw [htake, h1] at hocc
      rw [h1] at hget
      cases hget
      exact absurd hocc (by decide +kernel)

/-- **The largest number can be lost.** Frame 66 is buffered, then frame 2 takes its slot: 66 is neither
in the window nor in the gap, which ends at 65. -/
theorem largest_not_requestable :
    let ops := [TrackerOp.push (heartbeatFrame 66), .push (heartbeatFrame 2)]
    largestPushed ops = 66 ∧ ¬ Requestable (runOps ops).tracker (largestPushed ops) := by
  intro ops
  have hlargest : largestPushed ops = 66 := by decide +kernel
  refine ⟨hlargest, ?_⟩
  intro h
  rw [hlargest] at h
  have hnot : ¬ Buffers (runOps ops).tracker 66 := by
    unfold Buffers
    decide +kernel
  obtain ⟨-, -, hend⟩ := h 66 (by decide +kernel) (by decide) hnot
  exact absurd hend (by decide +kernel)

/-! ## The window as numbers -/

/-- The window without its bytes: the counter, and the number in each slot. -/
structure NumberWindow where
  next : UInt64
  slots : Fin kReorderWindow → Option UInt64

namespace NumberWindow

/-- Take out the numbers in a row that are in their slots, up to so many. -/
def flush : Nat → NumberWindow → NumberWindow
  | 0, w => w
  | k + 1, w =>
    if w.slots (slotIndex w.next) = some w.next then
      flush k ⟨w.next + 1, Function.update w.slots (slotIndex w.next) none⟩
    else w

/-- A number arrives: it is the next one, it is late, or it takes its slot. -/
def push (w : NumberWindow) (s : UInt64) : NumberWindow :=
  if s = w.next then flush 64 { w with next := w.next + 1 }
  else if s < w.next then w
  else { w with slots := Function.update w.slots (slotIndex s) (some s) }

end NumberWindow

/-- The number in a slot, if there is a frame in it. -/
def slotNumber (s : Slot) : Option UInt64 := if s.occupied then some s.seq else none

/-- The numbers in a tracker's window. -/
def numbers (t : SequenceTracker) : NumberWindow where
  next := t.stats.nextExpected
  slots := slotNumber ∘ t.window

theorem numbers_congr {t' : SequenceTracker} (hnext : t'.stats.nextExpected = t.stats.nextExpected)
    (hwindow : t'.window = t.window) : numbers t' = numbers t := by
  unfold numbers
  rw [hnext, hwindow]

theorem slotNumber_eq_some {s : Slot} {k : UInt64} :
    slotNumber s = some k ↔ s.occupied = true ∧ s.seq = k := by
  unfold slotNumber
  split_ifs with hocc <;> simp [hocc]

theorem matches_iff :
    t.Matches ↔ (numbers t).slots (slotIndex (numbers t).next) = some (numbers t).next :=
  slotNumber_eq_some.symm

theorem numbers_deliverSlot :
    numbers t.deliverSlot =
      ⟨(numbers t).next + 1, Function.update (numbers t).slots (slotIndex (numbers t).next) none⟩ := by
  unfold numbers SequenceTracker.deliverSlot
  dsimp only
  rw [Function.comp_update]
  rfl

/-- The flush loop delivers no more frames than there are in the window. -/
theorem flushes_length {t' : SequenceTracker} {out : List (List UInt8)}
    (h : SequenceTracker.Flushes t out t') : out.length ≤ t.occupancy := by
  induction h with
  | stop _ => exact Nat.zero_le _
  | @pass t t' out hm _ ih =>
    have hless : t.deliverSlot.occupancy < t.occupancy :=
      SequenceTracker.flushPass_variant t t.deliverSlot (if_pos hm)
    exact Nat.lt_of_le_of_lt ih hless

theorem occupancy_le : t.occupancy ≤ 64 :=
  (Finset.card_filter_le _ _).trans (Nat.le_of_eq (Finset.card_fin _))

/-- The flush loop, number by number. -/
theorem numbers_flushes {t' : SequenceTracker} {out : List (List UInt8)}
    (h : SequenceTracker.Flushes t out t') {k : Nat} (hk : out.length ≤ k) :
    (numbers t).flush k = numbers t' := by
  induction h generalizing k with
  | stop hm =>
    cases k with
    | zero => rfl
    | succ k => exact if_neg fun hslot => hm (matches_iff.mpr hslot)
  | pass hm _ ih =>
    cases k with
    | zero => exact absurd hk (Nat.not_succ_le_zero _)
    | succ k =>
      rw [NumberWindow.flush, if_pos (matches_iff.mp hm), ← numbers_deliverSlot]
      exact ih (Nat.le_of_succ_le_succ hk)

/-- **The tracker moves its numbers as the plain window does.** -/
theorem numbers_push (h20 : 20 ≤ f.length) (h44 : f.length ≤ 44) :
    numbers (t.push f).1 = (numbers t).push (frameSeq f) := by
  have hnext : (numbers t).next = t.stats.nextExpected := rfl
  unfold NumberWindow.push
  rw [hnext]
  rcases SequenceTracker.push_cases t f with ⟨hbad, -⟩ | ⟨-, -, hcase⟩
  · exact absurd ⟨h20, h44⟩ hbad
  rcases hcase with ⟨hexp, -⟩ | ⟨hlt, heq⟩ | ⟨hgt, heq⟩
  · obtain ⟨out, t', hflush, hwin, -, hstats, -⟩ := SequenceTracker.push_expected h20 h44 hexp
    rw [if_pos hexp]
    have hrun := numbers_flushes hflush ((flushes_length hflush).trans occupancy_le)
    rw [numbers_congr (congrArg SequenceStats.nextExpected hstats) hwin, ← hrun]
    rfl
  · rw [if_neg (fun h => absurd (h ▸ hlt) (UInt64.lt_irrefl _)), if_pos hlt, heq]
    rfl
  · have hne : ¬ frameSeq f = t.stats.nextExpected := fun h =>
      absurd (h ▸ hgt) (UInt64.lt_irrefl _)
    rw [if_neg hne, if_neg (fun h => absurd (UInt64.lt_trans h hgt) (UInt64.lt_irrefl _)), heq]
    unfold numbers
    rw [SequenceTracker.buffer_nextExpected, SequenceTracker.buffer_window]
    congr 1
    split_ifs with hdup
    · -- a duplicate: its number is in the slot already
      have hslot := slotNumber_eq_some.mpr
        ⟨(Bool.and_eq_true_iff.mp hdup).1, beq_iff_eq.mp (Bool.and_eq_true_iff.mp hdup).2⟩
      rw [← hslot]
      exact (Function.update_eq_self _ _).symm
    · have hslot := slotNumber_eq_some.mpr ⟨rfl, (SequenceTracker.stored_slot h20 h44
        (t.window (slotIndex (frameSeq f))).data).2.2.1⟩
      rw [Function.comp_update, hslot]

theorem numbers_pushes {frames : List (List UInt8)}
    (hsize : ∀ f ∈ frames, 20 ≤ f.length ∧ f.length ≤ 44) :
    numbers (frames.foldl (fun t f => (t.push f).1) t)
      = (frames.map frameSeq).foldl NumberWindow.push (numbers t) := by
  induction frames generalizing t with
  | nil => rfl
  | cons f frames ih =>
    obtain ⟨h20, h44⟩ := hsize f (List.mem_cons_self ..)
    rw [List.foldl_cons, ih (fun g hg => hsize g (List.mem_cons_of_mem _ hg)), numbers_push h20 h44]
    rfl

/-! ## What a recovery attempt leaves pending -/

/-- If the counter has not passed the end of the requested range, a gap is still pending and covers
every number of that range that is neither delivered nor buffered. -/
def GapKept (t t' : SequenceTracker) : Prop :=
  t'.stats.nextExpected ≤ t.gapEnd →
    t'.gapPending = true ∧
    ∀ s, t.gapStart ≤ s → s ≤ t.gapEnd → t'.stats.nextExpected ≤ s → ¬ Buffers t' s →
      t'.gapStart ≤ s ∧ s ≤ t'.gapEnd

/-- The attempt fails before an answer has arrived, or the numbers of the frames in the answer, taken in
their order, lead through the window to beyond the gap. -/
def Recovery.Fills (t : SequenceTracker) : Recovery → Prop
  | .answered _ resp chunks _ =>
    ∀ pieces, Splits wireFrames (payloadOf resp chunks) pieces →
      t.gapEnd < ((pieces.map frameSeq).foldl NumberWindow.push (numbers t)).next
  | _ => True

/-- The counter after an answer. -/
theorem next_of_answer {got : List UInt8} {pieces : List (List UInt8)}
    (hsplit : Splits wireFrames got pieces) (t : SequenceTracker) :
    (pushPayload t got).stats.nextExpected
      = ((pieces.map frameSeq).foldl NumberWindow.push (numbers t)).next := by
  have hsize : ∀ p ∈ pieces, 20 ≤ p.length ∧ p.length ≤ 44 := by
    intro p hp
    obtain ⟨hok, hlen⟩ := whole_iff.mp (hsplit.whole p hp)
    have hbounds := parseMessage_ok_bounds hok
    omega
  rw [pushPayload_eq hsplit, ← numbers_pushes hsize]
  rfl

theorem gapKept_refl (hpend : t.gapPending = true) : GapKept t t :=
  fun _ => ⟨hpend, fun _ hlo hhi _ _ => ⟨hlo, hhi⟩⟩

/-- **What a recovery attempt leaves pending.** From any state with a gap pending, the attempt keeps what
is still missing of the requested range pending, if and only if it failed before an answer arrived or
the answer fills the gap: every answer drops the interval. -/
theorem recovery_keeps_gap (h : FeedHandler) (hpend : h.tracker.gapPending = true) (rec : Recovery) :
    GapKept h.tracker (h.tryRecover rec).tracker ↔ rec.Fills h.tracker := by
  have hgo : ¬ (!h.tracker.gapPending) = true := by rw [hpend]; decide
  cases rec with
  | socketFailed | connectFailed =>
    refine iff_of_true ?_ trivial
    unfold FeedHandler.tryRecover
    rw [if_neg hgo]
    exact gapKept_refl hpend
  | sendFailed sentNs | headerFailed sentNs =>
    refine iff_of_true ?_ trivial
    unfold FeedHandler.tryRecover
    rw [if_neg hgo]
    exact gapKept_refl hpend
  | answered sentNs resp chunks latencyNs =>
    obtain ⟨pieces, hsplit⟩ := exists_splits (F := wireFrames) (payloadOf resp chunks)
    rw [FeedHandler.tryRecover_answered hpend]
    unfold GapKept Recovery.Fills
    -- the gap is gone, so the counter has to be past it
    constructor
    · intro hkept pieces hsplit
      rw [← next_of_answer hsplit]
      by_contra hnot
      have hle : (pushPayload h.tracker (payloadOf resp chunks)).stats.nextExpected
          ≤ h.tracker.gapEnd := by
        rw [UInt64.lt_iff_toNat_lt] at hnot
        rw [UInt64.le_iff_toNat_le]
        omega
      have hgone := (hkept hle).1
      cases hgone
    · intro hfills hle
      have hpast := hfills pieces hsplit
      rw [← next_of_answer hsplit, UInt64.lt_iff_toNat_lt] at hpast
      rw [UInt64.le_iff_toNat_le] at hle
      exact absurd (Nat.lt_of_lt_of_le hpast hle) (Nat.lt_irrefl _)

/-- A handler that has just received frame 2 instead of frame 1. -/
def gapHandler : FeedHandler :=
  { ({} : FeedHandler) with tracker := FeedHandler.afterPush {} (heartbeatFrame 2) }

theorem recovery_keeps_gap_failed :
    GapKept gapHandler.tracker (gapHandler.tryRecover (.headerFailed 7)).tracker := by
  have hpend : gapHandler.tracker.gapPending = true := by decide +kernel
  exact (recovery_keeps_gap gapHandler hpend (.headerFailed 7)).mpr trivial

/-- **An empty answer cancels the retry.** The server has nothing to send; number 1 is still missing, and
no gap is pending any more. -/
theorem empty_answer_drops_gap :
    let answer := Recovery.answered 7 (encodeGapResponse {} 0 8 1 1 0) [] 2
    gapHandler.tracker.gapPending = true ∧
      ¬ GapKept gapHandler.tracker (gapHandler.tryRecover answer).tracker := by
  intro answer
  have hpend : gapHandler.tracker.gapPending = true := by decide +kernel
  refine ⟨hpend, fun hkept => ?_⟩
  have hgone := (hkept (by decide +kernel)).1
  exact absurd hgone (by decide +kernel)

end MarketDataPipeline.Feed
