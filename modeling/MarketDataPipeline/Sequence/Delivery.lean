/-
# MarketDataPipeline.Sequence.Delivery — in order, exactly once, byte for byte.

The invariant is `Settled P`: every occupied slot holds a well-formed frame that satisfies `P`, sits at
the index its sequence number selects, and is numbered strictly above `next_expected`.  The predicate
`P` is a parameter because the users differ in what they know about the frames they push: here it is
"was pushed in this run", for the feed handler it is "is a frame of the session".

`push_delivers` is the step lemma: a push keeps the invariant and appends to `ready` a block of frames
numbered consecutively from `next_expected`.  All arithmetic on sequence numbers is that of 64-bit
words, and the step lemma holds without any bound: should the counter ever wrap, the window is empty
at that moment.  Only the last step, reading the numbers as `1, 2, 3, …`, needs the bound.
-/
import MarketDataPipeline.Sequence.Tracker

namespace MarketDataPipeline.Sequence

open MarketDataPipeline.Wire

/-! ## Consecutive numbers -/

/-- The frames carry the consecutive numbers `s, s + 1, …`. -/
def Numbered : UInt64 → List (List UInt8) → Prop
  | _, [] => True
  | s, f :: fs => frameSeq f = s ∧ Numbered (s + 1) fs

theorem numbered_append {s : UInt64} {a b : List (List UInt8)} (ha : Numbered s a)
    (hb : Numbered (s + UInt64.ofNat a.length) b) : Numbered s (a ++ b) := by
  induction a generalizing s with
  | nil => simpa using hb
  | cons f fs ih =>
    refine ⟨ha.1, ih ha.2 ?_⟩
    rw [List.length_cons, Nat.add_comm, UInt64.ofNat_add, ← UInt64.add_assoc] at hb
    exact hb

theorem toNat_ofNat_of_lt {n : Nat} (h : n < 2 ^ 64) : (UInt64.ofNat n).toNat = n := by
  rw [UInt64.toNat_ofNat']
  exact Nat.mod_eq_of_lt h

/-- Below the wrap, consecutive words are consecutive numbers. -/
theorem numbered_toNat {s : Nat} {fs : List (List UInt8)} (h : Numbered (UInt64.ofNat s) fs)
    (hs : s + fs.length ≤ 2 ^ 64) :
    fs.map (fun f => (frameSeq f).toNat) = List.range' s fs.length := by
  induction fs generalizing s with
  | nil => rfl
  | cons f fs ih =>
    rw [List.length_cons] at hs
    have hnext : UInt64.ofNat s + 1 = UInt64.ofNat (s + 1) := by
      rw [UInt64.ofNat_add]
      rfl
    rw [List.map_cons, List.length_cons, List.range'_succ, h.1,
      ih (hnext ▸ h.2) (by omega), toNat_ofNat_of_lt (by omega)]

/-- The sequence number of the frame at a given place. -/
theorem numbered_getElem {s : Nat} {fs : List (List UInt8)} (h : Numbered (UInt64.ofNat s) fs)
    (hs : s + fs.length ≤ 2 ^ 64) (k : Nat) (hk : k < fs.length) :
    (frameSeq fs[k]).toNat = s + k := by
  have hmap := numbered_toNat h hs
  have hget := congrArg (fun l => l[k]?) hmap
  simp only [List.getElem?_map, List.getElem?_eq_getElem hk, Option.map_some,
    List.getElem?_range' hk] at hget
  simpa using Option.some.inj hget

/-! ## The invariant of the window -/

namespace SequenceTracker

/-- Every occupied slot is well formed, holds a frame with the property `P`, and its sequence number
is at least `lo`. -/
def Buffered (P : List UInt8 → Prop) (lo : Nat) (t : SequenceTracker) : Prop :=
  ∀ i, (t.window i).occupied = true →
    20 ≤ (t.window i).length.toNat ∧ (t.window i).length.toNat ≤ 44 ∧
      slotIndex (t.window i).seq = i ∧ lo ≤ (t.window i).seq.toNat ∧ P (t.window i).frame

/-- The invariant between calls: buffered frames lie strictly above `next_expected`. -/
def Settled (P : List UInt8 → Prop) (t : SequenceTracker) : Prop :=
  Buffered P (t.stats.nextExpected.toNat + 1) t

variable {P : List UInt8 → Prop}

/-- A buffered frame is numbered as its slot says. -/
theorem Buffered.frameSeq {lo : Nat} {t : SequenceTracker} (h : t.Buffered P lo)
    {i : Fin kReorderWindow} (hi : (t.window i).occupied = true) :
    Sequence.frameSeq (t.window i).frame = (t.window i).seq :=
  Slot.frameSeq_frame (h i hi).1 (h i hi).2.1

theorem toNat_add_one_le {a b : UInt64} (hle : a.toNat ≤ b.toNat) (hne : a ≠ b) :
    (a + 1).toNat ≤ b.toNat := by
  have hne' : a.toNat ≠ b.toNat := fun h => hne (UInt64.toNat_inj.mp h)
  have hb := b.toNat_lt
  rw [UInt64.toNat_add, UInt64.toNat_one, Nat.mod_eq_of_lt (by omega)]
  omega

/-- One pass of the flush loop keeps the window in shape. -/
theorem deliverSlot_buffered {t : SequenceTracker} (h : t.Buffered P t.stats.nextExpected.toNat) :
    t.deliverSlot.Buffered P t.deliverSlot.stats.nextExpected.toNat := by
  intro i hi
  by_cases hidx : i = slotIndex t.stats.nextExpected
  · -- the slot that was just freed
    rw [hidx] at hi
    simp [deliverSlot] at hi
  · have hwin : t.deliverSlot.window i = t.window i := by simp [deliverSlot, hidx]
    rw [hwin] at hi ⊢
    obtain ⟨h20, h44, hslot, hlo, hP⟩ := h i hi
    refine ⟨h20, h44, hslot, ?_, hP⟩
    apply toNat_add_one_le hlo
    rintro heq
    rw [heq, hslot] at hidx
    exact hidx rfl

/-- **The flush loop.** What it delivers is numbered from `next_expected` on and was buffered; what it
leaves lies strictly above the new `next_expected`. -/
theorem Flushes.spec {t t' : SequenceTracker} {out : List (List UInt8)} (h : Flushes t out t')
    (hb : t.Buffered P t.stats.nextExpected.toNat) :
    t'.Settled P ∧ Numbered t.stats.nextExpected out ∧ ∀ f ∈ out, P f := by
  induction h with
  | @stop t hm =>
    refine ⟨?_, trivial, by simp⟩
    intro i hi
    obtain ⟨h20, h44, hslot, hlo, hP⟩ := hb i hi
    refine ⟨h20, h44, hslot, ?_, hP⟩
    have hne : t.stats.nextExpected.toNat ≠ (t.window i).seq.toNat := by
      intro heq
      have hnext : t.stats.nextExpected = (t.window i).seq := UInt64.toNat_inj.mp heq
      apply hm
      unfold Matches
      rw [hnext, hslot]
      exact ⟨hi, rfl⟩
    omega
  | @pass t t' out hm _ ih =>
    obtain ⟨hset, hnum, hall⟩ := ih (deliverSlot_buffered hb)
    refine ⟨hset, ⟨?_, hnum⟩, ?_⟩
    · rw [hb.frameSeq hm.1]
      exact hm.2
    · intro f hf
      rcases List.mem_cons.mp hf with rfl | hf
      · exact (hb _ hm.1).2.2.2.2
      · exact hall f hf

/-! ## One push -/

/-- `t'` is a sound successor of `t` that handed over the frames `out`. -/
structure Delivers (P : List UInt8 → Prop) (t t' : SequenceTracker) (out : List (List UInt8)) :
    Prop where
  settled : t'.Settled P
  ready : t'.ready = t.ready ++ out
  numbered : Numbered t.stats.nextExpected out
  nextExpected : t'.stats.nextExpected = t.stats.nextExpected + UInt64.ofNat out.length
  sound : ∀ f ∈ out, P f

/-- Nothing was delivered and the window and the counter are as they were. -/
theorem Delivers.of_same {t t' : SequenceTracker} (h : t.Settled P) (hw : t'.window = t.window)
    (hr : t'.ready = t.ready) (hn : t'.stats.nextExpected = t.stats.nextExpected) :
    Delivers P t t' [] where
  settled := by
    unfold Settled Buffered
    rw [hw, hn]
    exact h
  ready := by simpa using hr
  numbered := trivial
  nextExpected := by simpa using hn
  sound := by simp

theorem flushContiguous_delivers {t : SequenceTracker}
    (hb : t.Buffered P t.stats.nextExpected.toNat) :
    ∃ out, Delivers P t t.flushContiguous out := by
  obtain ⟨out, t', hf, heq⟩ := flushContiguous_flushes t
  obtain ⟨hset, hnum, hall⟩ := hf.spec hb
  refine ⟨out, ?_⟩
  -- dropping the gap touches neither the window nor the counter
  have hwin : t.flushContiguous.window = t'.window := by rw [heq]; split_ifs <;> rfl
  have hready : t.flushContiguous.ready = t'.ready := by rw [heq]; split_ifs <;> rfl
  have hstats : t.flushContiguous.stats = t'.stats := by rw [heq]; split_ifs <;> rfl
  refine ⟨?_, hready.trans hf.ready, hnum, ?_, hall⟩
  · unfold Settled Buffered
    rw [hwin, hstats]
    exact hset
  · rw [hstats]
    exact hf.nextExpected

@[simp] theorem extendGap_window (t : SequenceTracker) (seq : UInt64) :
    (t.extendGap seq).window = t.window := by unfold extendGap; split_ifs <;> rfl

@[simp] theorem extendGap_ready (t : SequenceTracker) (seq : UInt64) :
    (t.extendGap seq).ready = t.ready := by unfold extendGap; split_ifs <;> rfl

@[simp] theorem extendGap_stats (t : SequenceTracker) (seq : UInt64) :
    (t.extendGap seq).stats = t.stats := by unfold extendGap; split_ifs <;> rfl

section StoreOoo

variable (t : SequenceTracker) (seq : UInt64) (framed : List UInt8)

@[simp] theorem storeOoo_ready : (t.storeOoo seq framed).ready = t.ready := by
  simp only [storeOoo]
  split <;> rfl

@[simp] theorem storeOoo_nextExpected :
    (t.storeOoo seq framed).stats.nextExpected = t.stats.nextExpected := by
  simp only [storeOoo]
  split_ifs <;> rfl

@[simp] theorem storeOoo_gapStart : (t.storeOoo seq framed).gapStart = t.gapStart := by
  simp only [storeOoo]
  split <;> rfl

@[simp] theorem storeOoo_gapEnd : (t.storeOoo seq framed).gapEnd = t.gapEnd := by
  simp only [storeOoo]
  split <;> rfl

end StoreOoo

@[simp] theorem buffer_ready (t : SequenceTracker) (framed : List UInt8) :
    (t.buffer framed).ready = t.ready := by
  unfold buffer
  rw [extendGap_ready, storeOoo_ready]

@[simp] theorem buffer_nextExpected (t : SequenceTracker) (framed : List UInt8) :
    (t.buffer framed).stats.nextExpected = t.stats.nextExpected := by
  unfold buffer
  rw [extendGap_stats, storeOoo_nextExpected]

/-- The window after an early frame: unchanged if the frame is a duplicate of a buffered one, else the
frame is in its slot. -/
theorem buffer_window (t : SequenceTracker) (framed : List UInt8) :
    (t.buffer framed).window =
      if (t.window (slotIndex (Sequence.frameSeq framed))).occupied &&
          (t.window (slotIndex (Sequence.frameSeq framed))).seq == Sequence.frameSeq framed then
        t.window
      else
        Function.update t.window (slotIndex (Sequence.frameSeq framed))
          { occupied := true
            length := UInt16.ofNat framed.length
            data := copyInto (t.window (slotIndex (Sequence.frameSeq framed))).data framed } := by
  unfold buffer storeOoo
  rw [extendGap_window]
  dsimp only
  split_ifs <;> rfl

/-- The slot that an early frame has been written to. -/
theorem stored_slot {framed : List UInt8} (h20 : 20 ≤ framed.length) (h44 : framed.length ≤ 44)
    (data : Fin kMaxStoredMessage → UInt8) :
    let s : Slot := ⟨true, UInt16.ofNat framed.length, copyInto data framed⟩
    20 ≤ s.length.toNat ∧ s.length.toNat ≤ 44 ∧ s.seq = Sequence.frameSeq framed ∧
      s.frame = framed := by
  intro s
  have hlen : s.length.toNat = framed.length := by
    show (UInt16.ofNat framed.length).toNat = framed.length
    rw [UInt16.toNat_ofNat']
    omega
  have hframe : s.frame = framed := frame_copyInto h44 data true
  refine ⟨by omega, by omega, ?_, hframe⟩
  rw [← Slot.frameSeq_frame (by omega) (by omega), hframe]

theorem buffer_settled {t : SequenceTracker} {framed : List UInt8} (h : t.Settled P)
    (h20 : 20 ≤ framed.length) (h44 : framed.length ≤ 44)
    (hgt : t.stats.nextExpected < Sequence.frameSeq framed) (hP : P framed) :
    (t.buffer framed).Settled P := by
  unfold Settled Buffered
  rw [buffer_window, buffer_nextExpected]
  split_ifs with hdup
  · exact h
  · intro i hi
    by_cases hidx : i = slotIndex (Sequence.frameSeq framed)
    · obtain ⟨hl20, hl44, hseq, hframe⟩ := stored_slot h20 h44
        (t.window (slotIndex (Sequence.frameSeq framed))).data
      rw [hidx, Function.update_self, hframe, hseq]
      refine ⟨hl20, hl44, rfl, ?_, hP⟩
      rw [UInt64.lt_iff_toNat_lt] at hgt
      omega
    · rw [Function.update_of_ne hidx] at hi ⊢
      exact h i hi

/-- **One push.** The invariant is kept, and what is delivered continues the numbering. -/
theorem push_delivers {t : SequenceTracker} {framed : List UInt8} (h : t.Settled P)
    (hP : 20 ≤ framed.length → framed.length ≤ 44 → P framed) :
    ∃ out, Delivers P t (t.push framed).1 out := by
  rcases push_cases t framed with ⟨-, heq⟩ | ⟨h20, h44, hcase⟩
  · rw [heq]
    exact ⟨[], Delivers.of_same h rfl rfl rfl⟩
  rcases hcase with ⟨hseq, heq⟩ | ⟨-, heq⟩ | ⟨hgt, heq⟩ <;> rw [heq]
  · -- the expected frame goes first, the flush continues with its successors
    have hb : (t.accept framed).Buffered P (t.accept framed).stats.nextExpected.toNat := by
      intro i hi
      obtain ⟨hl20, hl44, hslot, hlo, hPi⟩ := h i hi
      refine ⟨hl20, hl44, hslot, toNat_add_one_le (Nat.le_of_succ_le hlo) ?_, hPi⟩
      intro hsame
      have hval := congrArg UInt64.toNat hsame
      exact absurd hval (Nat.ne_of_lt hlo)
    obtain ⟨out, hd⟩ := flushContiguous_delivers hb
    refine ⟨framed :: out, hd.settled, ?_, ⟨hseq, hd.numbered⟩, ?_, ?_⟩
    · rw [hd.ready]
      simp [accept]
    · rw [hd.nextExpected, List.length_cons, Nat.add_comm, UInt64.ofNat_add, ← UInt64.add_assoc]
      rfl
    · intro f hf
      rcases List.mem_cons.mp hf with rfl | hf
      · exact hP h20 h44
      · exact hd.sound f hf
  · exact ⟨[], Delivers.of_same h rfl rfl rfl⟩
  · exact ⟨[], buffer_settled h h20 h44 hgt (hP h20 h44), by simp, trivial, by simp, by simp⟩

end SequenceTracker

/-! ## Runs -/

/-- A call of one of the tracker's mutating operations. -/
inductive TrackerOp where
  | push (framed : List UInt8)
  | clearReady
  | clearGap
  | noteRecovery (latencyNs : UInt64)

/-- A run so far: the tracker, and the frames that were in `ready()` when it was cleared. -/
structure TrackerRun where
  tracker : SequenceTracker := {}
  past : List (List UInt8) := []

/-- All frames that ever appeared in `ready()`, in order. -/
def TrackerRun.appeared (r : TrackerRun) : List (List UInt8) := r.past ++ r.tracker.ready

def TrackerRun.step (r : TrackerRun) : TrackerOp → TrackerRun
  | .push framed => { r with tracker := (r.tracker.push framed).1 }
  | .clearReady => { tracker := r.tracker.clearReady, past := r.past ++ r.tracker.ready }
  | .clearGap => { r with tracker := r.tracker.clearGap }
  | .noteRecovery latencyNs => { r with tracker := r.tracker.noteRecovery latencyNs }

/-- The run of a list of calls on a fresh tracker. -/
def runOps (ops : List TrackerOp) : TrackerRun := ops.foldl TrackerRun.step {}

/-- What holds after every call. -/
structure TrackerRun.Sound (P : List UInt8 → Prop) (r : TrackerRun) : Prop where
  settled : r.tracker.Settled P
  numbered : Numbered 1 r.appeared
  nextExpected : r.tracker.stats.nextExpected = UInt64.ofNat (1 + r.appeared.length)
  sound : ∀ f ∈ r.appeared, P f

theorem TrackerRun.sound_init (P : List UInt8 → Prop) : TrackerRun.Sound P {} where
  settled := by
    intro i hi
    cases hi
  numbered := trivial
  nextExpected := rfl
  sound := by
    intro f hf
    cases hf

/-- A step that appends the delivered block to what appeared keeps `Sound`. -/
theorem TrackerRun.Sound.extend {P : List UInt8 → Prop} {r r' : TrackerRun}
    {out : List (List UInt8)} (h : r.Sound P) (happ : r'.appeared = r.appeared ++ out)
    (hd : SequenceTracker.Delivers P r.tracker r'.tracker out) : r'.Sound P where
  settled := hd.settled
  numbered := by
    rw [happ]
    apply numbered_append h.numbered
    have hn := hd.numbered
    rw [h.nextExpected, UInt64.ofNat_add] at hn
    exact hn
  nextExpected := by
    rw [hd.nextExpected, h.nextExpected, happ, List.length_append, ← Nat.add_assoc,
      UInt64.ofNat_add (1 + _)]
  sound := by
    intro f hf
    rw [happ] at hf
    rcases List.mem_append.mp hf with hf | hf
    · exact h.sound f hf
    · exact hd.sound f hf

theorem TrackerRun.appeared_push {P : List UInt8 → Prop} {r : TrackerRun} {framed : List UInt8}
    {out : List (List UInt8)}
    (hd : SequenceTracker.Delivers P r.tracker (r.tracker.push framed).1 out) :
    (r.step (.push framed)).appeared = r.appeared ++ out := by
  unfold TrackerRun.appeared
  rw [show (r.step (.push framed)).tracker.ready = _ from hd.ready, ← List.append_assoc]
  rfl

theorem TrackerRun.sound_step {P : List UInt8 → Prop} {r : TrackerRun} (h : r.Sound P)
    (op : TrackerOp) (hop : ∀ framed, op = .push framed → P framed) : (r.step op).Sound P := by
  cases op with
  | push framed =>
    obtain ⟨out, hd⟩ := SequenceTracker.push_delivers h.settled (fun _ _ => hop framed rfl)
    exact h.extend (TrackerRun.appeared_push hd) hd
  | clearReady =>
    refine ⟨h.settled, ?_, ?_, ?_⟩ <;>
      simp only [TrackerRun.appeared, TrackerRun.step, SequenceTracker.clearReady, List.append_nil]
    · exact h.numbered
    · exact h.nextExpected
    · exact h.sound
  | clearGap => exact ⟨h.settled, h.numbered, h.nextExpected, h.sound⟩
  | noteRecovery latencyNs => exact ⟨h.settled, h.numbered, h.nextExpected, h.sound⟩

/-- Pushing a frame that satisfies the predicate. -/
theorem TrackerRun.Sound.push {P : List UInt8 → Prop} {r : TrackerRun} (h : r.Sound P)
    {framed : List UInt8} (hP : P framed) : (r.step (.push framed)).Sound P :=
  TrackerRun.sound_step h (.push framed) fun _ heq => by
    cases heq
    exact hP

@[simp] theorem runOps_snoc (pre : List TrackerOp) (op : TrackerOp) :
    runOps (pre ++ [op]) = (runOps pre).step op := by
  unfold runOps
  rw [List.foldl_append]
  rfl

/-- A run is sound for every property that its pushed frames have. -/
theorem runOps_sound_of {P : List UInt8 → Prop} (ops : List TrackerOp)
    (hP : ∀ f, TrackerOp.push f ∈ ops → P f) : (runOps ops).Sound P := by
  induction ops using List.reverseRecOn with
  | nil => exact TrackerRun.sound_init _
  | append_singleton pre op ih =>
    rw [runOps_snoc]
    apply TrackerRun.sound_step (ih fun f hf => hP f (List.mem_append_left _ hf))
    rintro framed rfl
    exact hP framed (List.mem_append_right _ (List.mem_singleton_self _))

theorem runOps_sound (ops : List TrackerOp) :
    (runOps ops).Sound (fun f => TrackerOp.push f ∈ ops) :=
  runOps_sound_of ops fun _ hf => hf

/-- **In order, exactly once, byte for byte.** `next_expected` is one more than the number of frames
delivered (`TrackerRun.Sound.nextExpected`), so the hypothesis says that the counter stays below
`2^64 - 1` throughout the run. -/
theorem tracker_delivers_in_order (ops : List TrackerOp)
    (hbound : 1 + (runOps ops).appeared.length < 2 ^ 64 - 1) :
    (runOps ops).appeared.map (fun f => (frameSeq f).toNat)
        = List.range' 1 ((runOps ops).tracker.stats.nextExpected.toNat - 1) ∧
      (∀ f ∈ (runOps ops).appeared, TrackerOp.push f ∈ ops) ∧
      ∀ i : Fin kReorderWindow, ((runOps ops).tracker.window i).occupied = true →
        TrackerOp.push ((runOps ops).tracker.window i).frame ∈ ops ∧
          (runOps ops).tracker.stats.nextExpected
            < frameSeq ((runOps ops).tracker.window i).frame ∧
          (frameSeq ((runOps ops).tracker.window i).frame).toNat % 64 = i.val := by
  have h := runOps_sound ops
  refine ⟨?_, h.sound, ?_⟩
  · rw [h.nextExpected, toNat_ofNat_of_lt (by omega), Nat.add_sub_cancel_left]
    exact numbered_toNat h.numbered (by omega)
  · intro i hi
    obtain ⟨-, -, hslot, hlo, hP⟩ := h.settled i hi
    rw [h.settled.frameSeq hi]
    refine ⟨hP, ?_, ?_⟩
    · rw [UInt64.lt_iff_toNat_lt]
      omega
    · rw [← congrArg Fin.val hslot]
      rfl

/-- A run with an early frame, its duplicate and a late one. -/
def sampleRun : List TrackerOp :=
  let frame (seq : UInt64) := WireHeartbeat.image.put (encodeHeartbeat {} seq (10 * seq) seq)
  [.push (frame 1), .push (frame 3), .push (frame 3), .clearReady, .push (frame 2), .push (frame 1)]

theorem tracker_delivers_in_order_sample :
    (runOps sampleRun).appeared.map (fun f => (frameSeq f).toNat) = [1, 2, 3] := by
  have hlen : (runOps sampleRun).appeared.length = 3 := by decide +kernel
  have hnext : (runOps sampleRun).tracker.stats.nextExpected = 4 := by decide +kernel
  have h := (tracker_delivers_in_order sampleRun (by rw [hlen]; decide)).1
  rw [hnext] at h
  exact h

end MarketDataPipeline.Sequence
