/-
# MarketDataPipeline.Sequence.Tracker — the sequence tracker.

`SequenceTracker` is the class of `sequence_tracker.hpp` with all its members; `push`, `storeOoo` and
`flushContiguous` follow `sequence_tracker.cpp` statement by statement.  A window slot is a fixed array
of 44 bytes that is overwritten in place: a shorter frame leaves the tail of the previous one behind
it, and only `length` says where the frame ends.

Two facts about single steps carry everything that is proved about runs elsewhere.  `flushLoop_flushes`
says what the flush loop does: it delivers a chain of buffered frames with consecutive numbers and
stops at the first number that is not buffered (`Flushes`).  `push_cases` lists the four things that a
call of `push` can do.
-/
import Mathlib.Data.Fintype.Card
import MarketDataPipeline.Library.Loop
import MarketDataPipeline.Wire.Parser

namespace MarketDataPipeline.Sequence

open MarketDataPipeline.Library.Loop
open MarketDataPipeline.Wire

/-! ## State -/

def kReorderWindow : Nat := 64
def kMaxStoredMessage : Nat := kMaxMessageSize

instance : NeZero kReorderWindow := ⟨by decide⟩

structure SequenceStats where
  nextExpected : UInt64 := 1
  drops : UInt64 := 0
  recovered : UInt64 := 0
  outOfOrder : UInt64 := 0
  recoveryLatencyNs : UInt64 := 0
  recoveryEvents : UInt64 := 0
  deriving DecidableEq, Repr

structure Slot where
  occupied : Bool := false
  length : UInt16 := 0
  data : Fin kMaxStoredMessage → UInt8 := fun _ => 0

structure SequenceTracker where
  stats : SequenceStats := {}
  window : Fin kReorderWindow → Slot := fun _ => {}
  ready : List (List UInt8) := []
  gapStart : UInt64 := 0
  gapEnd : UInt64 := 0

/-- The sequence number that `memcpy(&wh, …)` and `load_be64(&wh.seq)` read from the front of some
bytes.  Every caller has at least 20 bytes at hand (`frameSeq_eq`). -/
def frameSeq (bytes : List UInt8) : UInt64 :=
  match headerOf bytes with
  | some hdr => hdr.seq
  | none => 0

/-- `seq % kReorderWindow`. -/
def slotIndex (seq : UInt64) : Fin kReorderWindow := Fin.ofNat kReorderWindow seq.toNat

/-- All 44 bytes of the slot. -/
def Slot.bytes (s : Slot) : List UInt8 := List.ofFn s.data

/-- The bytes of the frame in the slot: `[data.begin(), data.begin() + length)`. -/
def Slot.frame (s : Slot) : List UInt8 := s.bytes.take s.length.toNat

/-- The sequence number in the header that the slot holds. -/
def Slot.seq (s : Slot) : UInt64 := frameSeq s.bytes

/-- `memcpy(slot.data.data(), framed.data(), framed.size())`. -/
def copyInto (data : Fin kMaxStoredMessage → UInt8) (framed : List UInt8) :
    Fin kMaxStoredMessage → UInt8 :=
  fun i => framed.getD i.val (data i)

/-! ## Operations -/

namespace SequenceTracker

def noteRecovery (t : SequenceTracker) (latencyNs : UInt64) : SequenceTracker :=
  { t with stats := { t.stats with
      recoveryLatencyNs := t.stats.recoveryLatencyNs + latencyNs
      recoveryEvents := t.stats.recoveryEvents + 1 } }

def clearReady (t : SequenceTracker) : SequenceTracker := { t with ready := [] }

def gapPending (t : SequenceTracker) : Bool := t.gapStart != 0

def clearGap (t : SequenceTracker) : SequenceTracker := { t with gapStart := 0, gapEnd := 0 }

def storeOoo (t : SequenceTracker) (seq : UInt64) (framed : List UInt8) : SequenceTracker :=
  let idx := slotIndex seq
  let slot := t.window idx
  -- a duplicate of the buffered frame is ignored, any other frame in the slot is evicted
  if slot.occupied && slot.seq == seq then t
  else
    { t with
      stats := if slot.occupied then { t.stats with drops := t.stats.drops + 1 } else t.stats
      window := Function.update t.window idx
        { occupied := true
          length := UInt16.ofNat framed.length
          data := copyInto slot.data framed } }

/-- The next expected frame is buffered: the loop condition of `flush_contiguous`. -/
def Matches (t : SequenceTracker) : Prop :=
  (t.window (slotIndex t.stats.nextExpected)).occupied = true ∧
    (t.window (slotIndex t.stats.nextExpected)).seq = t.stats.nextExpected

instance (t : SequenceTracker) : Decidable t.Matches := inferInstanceAs (Decidable (_ ∧ _))

/-- The body of the flush loop: hand the buffered frame over and free its slot. -/
def deliverSlot (t : SequenceTracker) : SequenceTracker :=
  let idx := slotIndex t.stats.nextExpected
  let slot := t.window idx
  { t with
    ready := t.ready ++ [slot.frame]
    window := Function.update t.window idx { slot with occupied := false, length := 0 }
    stats := { t.stats with
      nextExpected := t.stats.nextExpected + 1
      recovered := t.stats.recovered + 1 } }

def flushPass (t : SequenceTracker) : Pass SequenceTracker SequenceTracker :=
  if t.Matches then .again t.deliverSlot else .done t

/-- The number of occupied slots. -/
def occupancy (t : SequenceTracker) : Nat :=
  (Finset.univ.filter fun i => (t.window i).occupied = true).card

/-- Every pass of the flush loop frees a slot. -/
theorem flushPass_variant : Variant flushPass occupancy := by
  intro t t' h
  unfold flushPass at h
  split_ifs at h with hm
  cases h
  unfold occupancy
  apply Finset.card_lt_card
  rw [Finset.ssubset_iff_of_subset]
  · refine ⟨slotIndex t.stats.nextExpected, ?_, ?_⟩
    · simpa using hm.1
    · rw [Finset.mem_filter]
      simp [deliverSlot]
  · intro i hi
    simp only [Finset.mem_filter, Finset.mem_univ, true_and] at hi ⊢
    by_cases hidx : i = slotIndex t.stats.nextExpected
    · rw [hidx]; exact hm.1
    · simpa [deliverSlot, hidx] using hi

/-- The `while (true)` of `flush_contiguous`. -/
def flushLoop (t : SequenceTracker) : SequenceTracker := run flushPass occupancy flushPass_variant t

def flushContiguous (t : SequenceTracker) : SequenceTracker :=
  let t := t.flushLoop
  -- the gap lies behind
  if t.gapStart ≠ 0 ∧ t.gapEnd < t.stats.nextExpected then t.clearGap else t

def push (t : SequenceTracker) (framed : List UInt8) : SequenceTracker × Bool :=
  if framed.length < Wire.WireHeader.image.size ∨ kMaxStoredMessage < framed.length then (t, false)
  else
    let seq := frameSeq framed
    -- expected
    if seq = t.stats.nextExpected then
      (flushContiguous { t with
        ready := t.ready ++ [framed]
        stats := { t.stats with nextExpected := t.stats.nextExpected + 1 } }, true)
    -- late: a frame with this number has been delivered
    else if seq < t.stats.nextExpected then
      ({ t with stats := { t.stats with drops := t.stats.drops + 1 } }, false)
    -- early
    else
      let t := { t with stats := { t.stats with outOfOrder := t.stats.outOfOrder + 1 } }
      let t := t.storeOoo seq framed
      if t.gapStart = 0 then
        ({ t with gapStart := t.stats.nextExpected, gapEnd := seq - 1 }, true)
      else if t.gapEnd < seq - 1 then
        ({ t with gapEnd := seq - 1 }, true)
      else
        (t, true)

end SequenceTracker

/-! ## Frames and slots -/

theorem frameSeq_eq {bytes : List UInt8} {hdr : Header} (h : headerOf bytes = some hdr) :
    frameSeq bytes = hdr.seq := by
  unfold frameSeq
  rw [h]

theorem frameSeq_append {bytes : List UInt8} (h : 20 ≤ bytes.length) (t : List UInt8) :
    frameSeq (bytes ++ t) = frameSeq bytes := by
  unfold frameSeq
  rw [headerOf_append h]

@[simp] theorem Slot.bytes_length (s : Slot) : s.bytes.length = 44 := by
  unfold Slot.bytes
  rw [List.length_ofFn]
  rfl

/-- The header of a frame of at least 20 bytes lies inside the frame. -/
theorem Slot.frameSeq_frame {s : Slot} (h20 : 20 ≤ s.length.toNat) (h44 : s.length.toNat ≤ 44) :
    frameSeq s.frame = s.seq := by
  have hlen : s.frame.length = s.length.toNat := by
    unfold Slot.frame
    rw [List.length_take, Slot.bytes_length]
    omega
  have happ := frameSeq_append (show 20 ≤ s.frame.length by omega) (s.bytes.drop s.length.toNat)
  unfold Slot.frame at happ ⊢
  rw [List.take_append_drop] at happ
  exact happ.symm

/-- **A stored frame reads back byte for byte**, whatever the slot held before. -/
theorem frame_copyInto {framed : List UInt8} (h44 : framed.length ≤ 44)
    (data : Fin kMaxStoredMessage → UInt8) (occupied : Bool) :
    Slot.frame ⟨occupied, UInt16.ofNat framed.length, copyInto data framed⟩ = framed := by
  have hlen : (UInt16.ofNat framed.length).toNat = framed.length := by
    rw [UInt16.toNat_ofNat']
    omega
  unfold Slot.frame Slot.bytes
  rw [hlen]
  apply List.ext_getElem
  · rw [List.length_take, List.length_ofFn]
    exact Nat.min_eq_left h44
  · intro i h1 h2
    simp [copyInto, h2]

theorem slotIndex_eq_iff {a b : UInt64} :
    slotIndex a = slotIndex b ↔ a.toNat % 64 = b.toNat % 64 := by
  unfold slotIndex
  rw [Fin.ext_iff]
  rfl

/-! ## The flush loop -/

namespace SequenceTracker

/-- `Flushes t out t'`: from `t` the flush loop delivers the frames `out`, one pass each, and leaves
`t'`. -/
inductive Flushes : SequenceTracker → List (List UInt8) → SequenceTracker → Prop where
  | stop {t : SequenceTracker} : ¬ t.Matches → Flushes t [] t
  | pass {t t' : SequenceTracker} {out : List (List UInt8)} : t.Matches →
      Flushes t.deliverSlot out t' →
      Flushes t ((t.window (slotIndex t.stats.nextExpected)).frame :: out) t'

theorem flushLoop_flushes (t : SequenceTracker) : ∃ out, Flushes t out t.flushLoop := by
  unfold flushLoop
  apply run_induction (motive := fun t t' => ∃ out, Flushes t out t')
  · intro t t' h
    unfold flushPass at h
    split_ifs at h with hm
    cases h
    exact ⟨[], .stop hm⟩
  · intro t t₁ t' h ih
    unfold flushPass at h
    split_ifs at h with hm
    cases h
    obtain ⟨out, hout⟩ := ih
    exact ⟨_, .pass hm hout⟩

theorem Flushes.ready {t t' : SequenceTracker} {out : List (List UInt8)} (h : Flushes t out t') :
    t'.ready = t.ready ++ out := by
  induction h with
  | stop _ => simp
  | pass _ _ ih => rw [ih]; simp [deliverSlot]

theorem Flushes.gap {t t' : SequenceTracker} {out : List (List UInt8)} (h : Flushes t out t') :
    t'.gapStart = t.gapStart ∧ t'.gapEnd = t.gapEnd := by
  induction h with
  | stop _ => exact ⟨rfl, rfl⟩
  | pass _ _ ih => exact ih

theorem Flushes.drops {t t' : SequenceTracker} {out : List (List UInt8)} (h : Flushes t out t') :
    t'.stats.drops = t.stats.drops := by
  induction h with
  | stop _ => rfl
  | pass _ _ ih => exact ih

theorem Flushes.nextExpected {t t' : SequenceTracker} {out : List (List UInt8)}
    (h : Flushes t out t') :
    t'.stats.nextExpected = t.stats.nextExpected + UInt64.ofNat out.length := by
  induction h with
  | stop _ => simp
  | pass _ _ ih =>
    rw [ih, List.length_cons, Nat.add_comm, UInt64.ofNat_add, ← UInt64.add_assoc]
    rfl

/-- `flush_contiguous` is the loop, followed by dropping a gap that lies behind. -/
theorem flushContiguous_flushes (t : SequenceTracker) :
    ∃ out t', Flushes t out t' ∧ t.flushContiguous =
      if t'.gapStart ≠ 0 ∧ t'.gapEnd < t'.stats.nextExpected then t'.clearGap else t' := by
  obtain ⟨out, h⟩ := flushLoop_flushes t
  exact ⟨out, t.flushLoop, h, rfl⟩

/-! ## What a push can do -/

/-- The tracker right after a frame that was expected has been appended to `ready`. -/
def accept (t : SequenceTracker) (framed : List UInt8) : SequenceTracker :=
  { t with
    ready := t.ready ++ [framed]
    stats := { t.stats with nextExpected := t.stats.nextExpected + 1 } }

/-- The gap bookkeeping at the end of `push`. -/
def extendGap (t : SequenceTracker) (seq : UInt64) : SequenceTracker :=
  if t.gapStart = 0 then { t with gapStart := t.stats.nextExpected, gapEnd := seq - 1 }
  else if t.gapEnd < seq - 1 then { t with gapEnd := seq - 1 }
  else t

/-- The tracker after a frame that arrived early. -/
def buffer (t : SequenceTracker) (framed : List UInt8) : SequenceTracker :=
  (storeOoo { t with stats := { t.stats with outOfOrder := t.stats.outOfOrder + 1 } }
    (frameSeq framed) framed).extendGap (frameSeq framed)

/-- **The four outcomes of `push`**: wrong size, expected, late, early. -/
theorem push_cases (t : SequenceTracker) (framed : List UInt8) :
    (¬ (20 ≤ framed.length ∧ framed.length ≤ 44) ∧ t.push framed = (t, false)) ∨
    (20 ≤ framed.length ∧ framed.length ≤ 44 ∧
      ((frameSeq framed = t.stats.nextExpected ∧
          t.push framed = ((t.accept framed).flushContiguous, true)) ∨
        (frameSeq framed < t.stats.nextExpected ∧
          t.push framed
            = ({ t with stats := { t.stats with drops := t.stats.drops + 1 } }, false)) ∨
        (t.stats.nextExpected < frameSeq framed ∧ t.push framed = (t.buffer framed, true)))) := by
  by_cases hsize : framed.length < Wire.WireHeader.image.size ∨ kMaxStoredMessage < framed.length
  · refine Or.inl ⟨?_, ?_⟩
    · simp only [WireHeader.image_size, kMaxStoredMessage, kMaxMessageSize_eq] at hsize
      omega
    · unfold push
      rw [if_pos hsize]
  · refine Or.inr ⟨?_, ?_, ?_⟩
    · simp only [WireHeader.image_size] at hsize; omega
    · simp only [kMaxStoredMessage, kMaxMessageSize_eq] at hsize; omega
    · unfold push
      rw [if_neg hsize]
      by_cases heq : frameSeq framed = t.stats.nextExpected
      · refine Or.inl ⟨heq, ?_⟩
        simp only
        rw [if_pos heq]
        rfl
      by_cases hlt : frameSeq framed < t.stats.nextExpected
      · refine Or.inr (Or.inl ⟨hlt, ?_⟩)
        simp only
        rw [if_neg heq, if_pos hlt]
      · refine Or.inr (Or.inr ⟨?_, ?_⟩)
        · rw [← UInt64.toNat_inj] at heq
          rw [UInt64.lt_iff_toNat_lt] at hlt ⊢
          omega
        · simp only
          rw [if_neg heq, if_neg hlt]
          unfold buffer extendGap
          split_ifs <;> rfl

end SequenceTracker

end MarketDataPipeline.Sequence
