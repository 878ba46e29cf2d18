/-
# MarketDataPipeline.Sequence.Window — what the 64 slots and the pending gap promise.

The window covers displacements of up to 64: as long as no push runs further ahead of `next_expected`
than that, two different frames never meet in one slot, so nothing that was buffered is lost and the
tracker ends with every frame delivered (`window_covers_reordering`).  The only limit is the counter:
a run of `2^64 - 1` frames wraps it (`window_promise_fails_at_wrap`).

The first two sections say, for a single push, what happens to each slot (`push_window`,
`push_keeps`) and to the pending gap (`push_gapOk`).
-/
import MarketDataPipeline.Sequence.Delivery
import MarketDataPipeline.Wire.RoundTrip

namespace MarketDataPipeline.Sequence

open MarketDataPipeline.Wire

namespace SequenceTracker

variable {P : List UInt8 → Prop}

/-! ## Slots -/

/-- The flush loop only empties slots. -/
theorem Flushes.window {t t' : SequenceTracker} {out : List (List UInt8)} (h : Flushes t out t')
    {i : Fin kReorderWindow} (hi : (t'.window i).occupied = true) : t'.window i = t.window i := by
  induction h with
  | stop _ => rfl
  | @pass t t' out hm _ ih =>
    have hsame := ih hi
    by_cases hidx : i = slotIndex t.stats.nextExpected
    · rw [hsame, hidx] at hi
      simp [deliverSlot] at hi
    · rw [hsame]
      simp [deliverSlot, hidx]

/-- A slot that the flush loop empties has been delivered. -/
theorem Flushes.keeps {t t' : SequenceTracker} {out : List (List UInt8)} (h : Flushes t out t')
    {i : Fin kReorderWindow} (hi : (t.window i).occupied = true) :
    t'.window i = t.window i ∨ (t.window i).frame ∈ out := by
  induction h with
  | stop _ => exact Or.inl rfl
  | @pass t t' out hm _ ih =>
    by_cases hidx : i = slotIndex t.stats.nextExpected
    · exact Or.inr (by rw [hidx]; exact List.mem_cons_self ..)
    · have hslot : t.deliverSlot.window i = t.window i := by simp [deliverSlot, hidx]
      rw [← hslot] at hi ⊢
      rcases ih hi with hsame | hmem
      · exact Or.inl hsame
      · exact Or.inr (List.mem_cons_of_mem _ hmem)

/-- The window and the deliveries of a push of the expected frame. -/
theorem push_expected {t : SequenceTracker} {framed : List UInt8} (h20 : 20 ≤ framed.length)
    (h44 : framed.length ≤ 44) (hseq : frameSeq framed = t.stats.nextExpected) :
    ∃ out t', Flushes (t.accept framed) out t' ∧ (t.push framed).1.window = t'.window ∧
      (t.push framed).1.ready = t.ready ++ framed :: out ∧ (t.push framed).1.stats = t'.stats ∧
      (t.push framed).1.gapStart = (if t'.gapStart ≠ 0 ∧ t'.gapEnd < t'.stats.nextExpected then 0
        else t.gapStart) ∧
      (t.push framed).1.gapEnd = (if t'.gapStart ≠ 0 ∧ t'.gapEnd < t'.stats.nextExpected then 0
        else t.gapEnd) := by
  rcases push_cases t framed with ⟨hbad, -⟩ | ⟨-, -, hcase⟩
  · exact absurd ⟨h20, h44⟩ hbad
  rcases hcase with ⟨-, heq⟩ | ⟨hlt, -⟩ | ⟨hgt, -⟩
  · obtain ⟨out, t', hf, hflush⟩ := flushContiguous_flushes (t.accept framed)
    refine ⟨out, t', hf, ?_, ?_, ?_, ?_, ?_⟩
    · rw [heq, hflush]; split_ifs <;> rfl
    · rw [heq, hflush]
      have hready : t'.ready = t.ready ++ framed :: out := by
        rw [hf.ready]
        simp [accept]
      split_ifs <;> exact hready
    · rw [heq, hflush]; split_ifs <;> rfl
    · rw [heq, hflush]
      split_ifs
      · rfl
      · exact hf.gap.1
    · rw [heq, hflush]
      split_ifs
      · rfl
      · exact hf.gap.2
  · rw [hseq, UInt64.lt_iff_toNat_lt] at hlt
    omega
  · rw [hseq, UInt64.lt_iff_toNat_lt] at hgt
    omega

/-- After a push, an occupied slot is one from before or holds the frame just pushed. -/
theorem push_window {t : SequenceTracker} {framed : List UInt8} {i : Fin kReorderWindow}
    (hi : ((t.push framed).1.window i).occupied = true) :
    (t.push framed).1.window i = t.window i ∨
      (t.stats.nextExpected < frameSeq framed ∧
        ((t.push framed).1.window i).seq = frameSeq framed) := by
  rcases push_cases t framed with ⟨-, heq⟩ | ⟨h20, h44, hcase⟩
  · rw [heq]; exact Or.inl rfl
  rcases hcase with ⟨hseq, heq⟩ | ⟨-, heq⟩ | ⟨hgt, heq⟩
  · obtain ⟨out, t', hf, hwin, -⟩ := push_expected h20 h44 hseq
    rw [hwin] at hi ⊢
    exact Or.inl (hf.window hi)
  · rw [heq]; exact Or.inl rfl
  · rw [heq, buffer_window] at hi ⊢
    split_ifs at hi ⊢
    · exact Or.inl rfl
    · by_cases hidx : i = slotIndex (frameSeq framed)
      · rw [hidx, Function.update_self]
        exact Or.inr ⟨hgt, (stored_slot h20 h44 _).2.2.1⟩
      · rw [Function.update_of_ne hidx]
        exact Or.inl rfl

/-- The buffered frames are at most 64 ahead of `next_expected`. -/
def Near (t : SequenceTracker) : Prop :=
  ∀ i, (t.window i).occupied = true →
    (t.window i).seq.toNat ≤ t.stats.nextExpected.toNat + 64

/-- Two numbers in one slot, both above `next_expected` and at most 64 ahead of it, are equal. -/
theorem eq_of_slotIndex {a b : UInt64} {next : Nat} (hidx : slotIndex a = slotIndex b)
    (ha : next < a.toNat) (ha' : a.toNat ≤ next + 64) (hb : next < b.toNat)
    (hb' : b.toNat ≤ next + 64) : a = b := by
  rw [slotIndex_eq_iff] at hidx
  apply UInt64.toNat_inj.mp
  omega

/-- **Nothing is evicted.** If the window and the pushed number are within 64 of `next_expected`,
every buffered frame stays in its slot or is delivered. -/
theorem push_keeps {t : SequenceTracker} {framed : List UInt8} (h : t.Settled P) (hnear : t.Near)
    (hseq : (frameSeq framed).toNat ≤ t.stats.nextExpected.toNat + 64) {i : Fin kReorderWindow}
    (hi : (t.window i).occupied = true) :
    (t.push framed).1.window i = t.window i ∨ (t.window i).frame ∈ (t.push framed).1.ready := by
  rcases push_cases t framed with ⟨-, heq⟩ | ⟨h20, h44, hcase⟩
  · rw [heq]; exact Or.inl rfl
  rcases hcase with ⟨hexp, heq⟩ | ⟨-, heq⟩ | ⟨hgt, heq⟩
  · obtain ⟨out, t', hf, hwin, hready, -⟩ := push_expected h20 h44 hexp
    rw [hwin, hready]
    rcases hf.keeps hi with hsame | hmem
    · exact Or.inl hsame
    · exact Or.inr (List.mem_append_right _ (List.mem_cons_of_mem _ hmem))
  · rw [heq]; exact Or.inl rfl
  · rw [heq, buffer_window]
    refine Or.inl ?_
    split_ifs with hdup
    · rfl
    · apply Function.update_of_ne
      rintro rfl
      obtain ⟨-, -, hslot, hlo, -⟩ := h _ hi
      rw [UInt64.lt_iff_toNat_lt] at hgt
      have hsame := eq_of_slotIndex hslot hlo (hnear _ hi) hgt hseq
      simp [hi, hsame] at hdup

/-- Under the same bounds the drop counter moves for late frames only. -/
theorem push_drops {t : SequenceTracker} {framed : List UInt8} (h : t.Settled P) (hnear : t.Near)
    (h20 : 20 ≤ framed.length) (h44 : framed.length ≤ 44)
    (hseq : (frameSeq framed).toNat ≤ t.stats.nextExpected.toNat + 64) :
    (t.push framed).1.stats.drops
      = t.stats.drops + (if frameSeq framed < t.stats.nextExpected then 1 else 0) := by
  rcases push_cases t framed with ⟨hbad, -⟩ | ⟨-, -, hcase⟩
  · exact absurd ⟨h20, h44⟩ hbad
  rcases hcase with ⟨hexp, heq⟩ | ⟨hlt, heq⟩ | ⟨hgt, heq⟩
  · obtain ⟨out, t', hf, -, -, hstats, -⟩ := push_expected h20 h44 hexp
    rw [hstats, hf.drops, if_neg (by rw [hexp, UInt64.lt_iff_toNat_lt]; omega)]
    simp [accept]
  · rw [heq, if_pos hlt]
  · have hnlt : ¬ frameSeq framed < t.stats.nextExpected := by
      rw [UInt64.lt_iff_toNat_lt] at hgt ⊢
      omega
    rw [heq, if_neg hnlt]
    unfold buffer storeOoo
    rw [extendGap_stats]
    dsimp only
    split_ifs with hdup hocc
    · simp
    · -- an occupied slot with another number contradicts the bounds
      obtain ⟨-, -, hslot, hlo, -⟩ := h _ hocc
      rw [UInt64.lt_iff_toNat_lt] at hgt
      have hsame := eq_of_slotIndex hslot hlo (hnear _ hocc) hgt hseq
      simp [hocc, hsame] at hdup
    · simp

theorem push_of_early {t : SequenceTracker} {framed : List UInt8} (h20 : 20 ≤ framed.length)
    (h44 : framed.length ≤ 44) (hgt : t.stats.nextExpected < frameSeq framed) :
    t.push framed = (t.buffer framed, true) := by
  rcases push_cases t framed with ⟨hbad, -⟩ | ⟨-, -, hcase⟩
  · exact absurd ⟨h20, h44⟩ hbad
  rw [UInt64.lt_iff_toNat_lt] at hgt
  rcases hcase with ⟨hexp, -⟩ | ⟨hlt, -⟩ | ⟨-, heq⟩
  · rw [hexp] at hgt
    omega
  · rw [UInt64.lt_iff_toNat_lt] at hlt
    omega
  · exact heq

/-- After an early push the frame with that number is in its slot. -/
theorem push_early {t : SequenceTracker} {framed : List UInt8} (h20 : 20 ≤ framed.length)
    (h44 : framed.length ≤ 44) (hgt : t.stats.nextExpected < frameSeq framed) :
    ((t.push framed).1.window (slotIndex (frameSeq framed))).occupied = true ∧
      ((t.push framed).1.window (slotIndex (frameSeq framed))).seq = frameSeq framed := by
  rw [push_of_early h20 h44 hgt, buffer_window]
  split_ifs with hdup
  · simpa using hdup
  · rw [Function.update_self]
    exact ⟨rfl, (stored_slot h20 h44 _).2.2.1⟩

/-! ## The pending gap -/

/-- A pending gap starts at or before `next_expected`, ends at or after it, and asks for nothing
beyond number `n - 1`. -/
def GapOk (n : Nat) (t : SequenceTracker) : Prop :=
  t.gapStart ≠ 0 → t.gapStart.toNat ≤ t.stats.nextExpected.toNat ∧
    t.stats.nextExpected.toNat ≤ t.gapEnd.toNat ∧ t.gapEnd.toNat + 1 ≤ n

theorem gapPending_iff {t : SequenceTracker} : t.gapPending = true ↔ t.gapStart ≠ 0 := by
  unfold gapPending
  rw [bne_iff_ne]

/-- The gap after an early frame: a new one starts at `next_expected`, one that is pending only grows. -/
theorem buffer_gap (t : SequenceTracker) (framed : List UInt8) :
    (t.buffer framed).gapStart = (if t.gapStart = 0 then t.stats.nextExpected else t.gapStart) ∧
      (t.buffer framed).gapEnd =
        (if t.gapStart = 0 ∨ t.gapEnd < frameSeq framed - 1 then frameSeq framed - 1
          else t.gapEnd) := by
  unfold buffer extendGap
  simp only [storeOoo_gapStart, storeOoo_gapEnd, storeOoo_nextExpected]
  by_cases h0 : t.gapStart = 0
  · simp [h0]
  · by_cases hlt : t.gapEnd < frameSeq framed - 1 <;> simp [h0, hlt]

theorem toNat_pos_of_lt {a b : UInt64} (h : a < b) : (b - 1).toNat + 1 = b.toNat := by
  rw [UInt64.lt_iff_toNat_lt] at h
  rw [UInt64.toNat_sub_of_le _ _ (by rw [UInt64.le_iff_toNat_le, UInt64.toNat_one]; omega),
    UInt64.toNat_one]
  omega

/-- A push of a number up to `n` keeps the gap in order, if it does not wrap the counter. -/
theorem push_gapOk {n : Nat} {t : SequenceTracker} {framed : List UInt8} (h : t.GapOk n)
    (hn : (frameSeq framed).toNat ≤ n)
    (hmono : t.stats.nextExpected.toNat ≤ (t.push framed).1.stats.nextExpected.toNat) :
    (t.push framed).1.GapOk n := by
  rcases push_cases t framed with ⟨-, heq⟩ | ⟨h20, h44, hcase⟩
  · rw [heq]; exact h
  rcases hcase with ⟨hexp, -⟩ | ⟨-, heq⟩ | ⟨hgt, heq⟩
  · obtain ⟨out, t', hf, -, -, hstats, hgs, hge⟩ := push_expected h20 h44 hexp
    intro hpend
    rw [hstats] at hmono ⊢
    rw [hgs] at hpend ⊢
    rw [hge]
    split_ifs at hpend ⊢ with hclear
    · exact absurd rfl hpend
    · obtain ⟨hstart, -, hend⟩ := h hpend
      have hns : ¬ t'.gapEnd < t'.stats.nextExpected := by
        intro hlt
        apply hclear
        refine ⟨?_, hlt⟩
        rw [hf.gap.1]
        exact hpend
      rw [hf.gap.2, UInt64.lt_iff_toNat_lt] at hns
      exact ⟨by omega, Nat.not_lt.mp hns, hend⟩
  · rw [heq]; exact h
  · have hpred := toNat_pos_of_lt hgt
    obtain ⟨hgs, hge⟩ := buffer_gap t framed
    rw [UInt64.lt_iff_toNat_lt] at hgt
    intro hpend
    rw [heq] at hpend ⊢
    rw [hgs] at hpend ⊢
    rw [hge, buffer_nextExpected]
    by_cases h0 : t.gapStart = 0
    · rw [if_pos h0, if_pos (Or.inl h0)]
      omega
    · obtain ⟨hstart, hnext, hend⟩ := h h0
      rw [if_neg h0]
      split_ifs with hgrow
      · have hlt := hgrow.resolve_left h0
        rw [UInt64.lt_iff_toNat_lt] at hlt
        omega
      · exact ⟨hstart, hnext, hend⟩

end SequenceTracker

/-! ## A complete session with bounded displacement -/

/-- The tracker after a list of pushes. -/
def pushAll (pushes : List (List UInt8)) : SequenceTracker :=
  pushes.foldl (fun t framed => (t.push framed).1) {}

@[simp] theorem pushAll_snoc (pre : List (List UInt8)) (framed : List UInt8) :
    pushAll (pre ++ [framed]) = ((pushAll pre).push framed).1 := by
  unfold pushAll
  rw [List.foldl_append]
  rfl

/-- A frame with this number has been delivered. -/
def SequenceTracker.delivered (t : SequenceTracker) (framed : List UInt8) : Bool :=
  t.ready.any fun g => frameSeq g == frameSeq framed

/-- The number of pushes whose frame had been delivered before. -/
def lateCount (pushes : List (List UInt8)) : Nat :=
  (pushes.foldl (fun (r : SequenceTracker × Nat) framed =>
    ((r.1.push framed).1, if r.1.delivered framed then r.2 + 1 else r.2)) ({}, 0)).2

/-- The pushes bring the frames `1 … n`, in an order that never runs more than 64 ahead. -/
structure Covers (n : Nat) (pushes : List (List UInt8)) : Prop where
  size : ∀ f ∈ pushes, 20 ≤ f.length ∧ f.length ≤ 44
  range : ∀ f ∈ pushes, 1 ≤ (frameSeq f).toNat ∧ (frameSeq f).toNat ≤ n
  same : ∀ f ∈ pushes, ∀ g ∈ pushes, frameSeq f = frameSeq g → f = g
  complete : ∀ k, 1 ≤ k → k ≤ n → ∃ f ∈ pushes, (frameSeq f).toNat = k
  near : ∀ pre f post, pushes = pre ++ f :: post →
    (frameSeq f).toNat ≤ (pushAll pre).stats.nextExpected.toNat + 64

/-- What the window promises for sessions of `n` frames. -/
def WindowPromise (n : Nat) : Prop :=
  ∀ pushes, Covers n pushes →
    (pushAll pushes).ready.map (fun f => (frameSeq f).toNat) = List.range' 1 n ∧
    (∀ f, f ∈ (pushAll pushes).ready ↔ f ∈ pushes) ∧
    (pushAll pushes).stats.nextExpected = UInt64.ofNat (n + 1) ∧
    (∀ i, ((pushAll pushes).window i).occupied = false) ∧
    (pushAll pushes).gapPending = false ∧
    (pushAll pushes).stats.drops = UInt64.ofNat (lateCount pushes) ∧
    ∀ pre f post, pushes = pre ++ f :: post →
      ∀ i, ((pushAll pre).window i).occupied = true →
        (pushAll (pre ++ [f])).window i = (pushAll pre).window i ∨
          ((pushAll pre).window i).frame ∈ (pushAll (pre ++ [f])).ready

theorem lateCount_snoc (pre : List (List UInt8)) (framed : List UInt8) :
    lateCount (pre ++ [framed])
      = if (pushAll pre).delivered framed then lateCount pre + 1 else lateCount pre := by
  have hfst : ∀ (l : List (List UInt8)) (r : SequenceTracker × Nat),
      (l.foldl (fun (r : SequenceTracker × Nat) framed =>
        ((r.1.push framed).1, if r.1.delivered framed then r.2 + 1 else r.2)) r).1
        = l.foldl (fun t framed => (t.push framed).1) r.1 := by
    intro l
    induction l with
    | nil => intro r; rfl
    | cons f l ih => intro r; exact ih _
  unfold lateCount
  rw [List.foldl_append, List.foldl_cons, List.foldl_nil]
  simp only [hfst]
  rfl

theorem numbered_take {s : UInt64} {fs : List (List UInt8)} (h : Numbered s fs) (k : Nat) :
    Numbered s (fs.take k) := by
  induction fs generalizing s k with
  | nil => simpa using h
  | cons f fs ih =>
    cases k with
    | zero => trivial
    | succ k => exact ⟨h.1, ih h.2 k⟩

/-- Frames numbered from 1 with numbers up to `n` are at most `n` many, short of the wrap. -/
theorem numbered_length_le {n : Nat} {fs : List (List UInt8)} (h : Numbered 1 fs)
    (hn : n < 2 ^ 64 - 1) (hle : ∀ f ∈ fs, (frameSeq f).toNat ≤ n) : fs.length ≤ n := by
  by_contra hlong
  have hlen : (fs.take (n + 1)).length = n + 1 := by
    rw [List.length_take]
    omega
  have hlast := numbered_getElem (s := 1) (numbered_take h (n + 1)) (by omega) n (by omega)
  have hmem := hle _ (List.mem_of_mem_take
    (List.getElem_mem (show n < (fs.take (n + 1)).length by omega)))
  omega

/-- The number of a delivered frame lies between 1 and `next_expected`. -/
theorem numbered_mem_iff {fs : List (List UInt8)} (h : Numbered 1 fs) (hlen : fs.length < 2 ^ 64 - 1)
    (k : Nat) : (∃ f ∈ fs, (frameSeq f).toNat = k) ↔ 1 ≤ k ∧ k < 1 + fs.length := by
  have hmap := numbered_toNat (s := 1) h (by omega)
  rw [← List.mem_range'_1, ← hmap, List.mem_map]

/-- A sound run whose frames are numbered up to `n` has not wrapped its counter. -/
theorem TrackerRun.Sound.next_toNat {n : Nat} {P : List UInt8 → Prop} {r : TrackerRun}
    (h : r.Sound P) (hP : ∀ f, P f → (frameSeq f).toNat ≤ n) (hn : n < 2 ^ 64 - 1) :
    r.appeared.length ≤ n ∧ r.tracker.stats.nextExpected.toNat = 1 + r.appeared.length := by
  have hlen : r.appeared.length ≤ n :=
    numbered_length_le h.numbered hn fun f hf => hP f (h.sound f hf)
  refine ⟨hlen, ?_⟩
  rw [h.nextExpected, toNat_ofNat_of_lt (by omega)]

/-- A push never takes the counter back. -/
theorem TrackerRun.Sound.push_mono {n : Nat} {P : List UInt8 → Prop} {r : TrackerRun}
    (h : r.Sound P) (hP : ∀ f, P f → (frameSeq f).toNat ≤ n) (hn : n < 2 ^ 64 - 1)
    {f : List UInt8} (hf : P f) :
    r.tracker.stats.nextExpected.toNat ≤ (r.tracker.push f).1.stats.nextExpected.toNat := by
  obtain ⟨out, hd⟩ := SequenceTracker.push_delivers h.settled (fun _ _ => hf)
  have hnext : (r.tracker.push f).1.stats.nextExpected.toNat = 1 + (r.appeared ++ out).length :=
    TrackerRun.appeared_push hd ▸ ((h.push hf).next_toNat hP hn).2
  rw [(h.next_toNat hP hn).2, hnext, List.length_append]
  omega

/-- What holds after every push of a covering list. -/
structure Covered (n : Nat) (pushes pre : List (List UInt8)) : Prop where
  sound : TrackerRun.Sound (fun f => f ∈ pushes) ⟨pushAll pre, []⟩
  near : (pushAll pre).Near
  gap : (pushAll pre).GapOk n
  held : ∀ f ∈ pre, (pushAll pre).stats.nextExpected.toNat ≤ (frameSeq f).toNat →
    ∃ i, ((pushAll pre).window i).occupied = true ∧ ((pushAll pre).window i).seq = frameSeq f
  drops : (pushAll pre).stats.drops = UInt64.ofNat (lateCount pre)

section Covering

variable {n : Nat} {pushes pre : List (List UInt8)}

theorem next_toNat_of_sound {P : List UInt8 → Prop} {t : SequenceTracker}
    (h : TrackerRun.Sound P ⟨t, []⟩) (hP : ∀ f, P f → (frameSeq f).toNat ≤ n)
    (hn : n < 2 ^ 64 - 1) :
    t.ready.length ≤ n ∧ t.stats.nextExpected.toNat = 1 + t.ready.length :=
  h.next_toNat hP hn

/-- What is ready has a number below `next_expected`. -/
theorem behind_of_sound {P : List UInt8 → Prop} {t : SequenceTracker}
    (h : TrackerRun.Sound P ⟨t, []⟩) (hP : ∀ f, P f → (frameSeq f).toNat ≤ n)
    (hn : n < 2 ^ 64 - 1) : ∀ g ∈ t.ready, (frameSeq g).toNat < t.stats.nextExpected.toNat := by
  obtain ⟨hlen, hnext⟩ := next_toNat_of_sound h hP hn
  have hnum : Numbered 1 t.ready := h.numbered
  intro g hg
  rw [hnext]
  exact ((numbered_mem_iff hnum (Nat.lt_of_le_of_lt hlen hn) _).mp ⟨g, hg, rfl⟩).2

theorem Covered.delivered_iff (h : Covered n pushes pre) (hc : Covers n pushes)
    (hn : n < 2 ^ 64 - 1) {f : List UInt8} (hf : f ∈ pushes) :
    (pushAll pre).delivered f = true ↔ frameSeq f < (pushAll pre).stats.nextExpected := by
  obtain ⟨hlen, hnext⟩ := next_toNat_of_sound h.sound (fun g hg => (hc.range g hg).2) hn
  have hnum : Numbered 1 (pushAll pre).ready := h.sound.numbered
  have h1 := (hc.range f hf).1
  unfold SequenceTracker.delivered
  rw [List.any_eq_true, UInt64.lt_iff_toNat_lt, hnext]
  simp only [beq_iff_eq, ← UInt64.toNat_inj]
  rw [numbered_mem_iff hnum (Nat.lt_of_le_of_lt hlen hn)]
  omega

theorem covered_nil (pushes : List (List UInt8)) : Covered n pushes [] where
  sound := TrackerRun.sound_init _
  near := by
    intro i hi
    cases hi
  gap := by
    intro h
    exact absurd rfl h
  held := by
    intro f hf
    cases hf
  drops := rfl

/-- The step: one more push of a covering list. -/
theorem Covered.snoc (h : Covered n pushes pre) (hc : Covers n pushes) (hn : n < 2 ^ 64 - 1)
    {f : List UInt8} {post : List (List UInt8)} (hpush : pushes = pre ++ f :: post) :
    Covered n pushes (pre ++ [f]) := by
  have hf : f ∈ pushes := by rw [hpush]; simp
  obtain ⟨h20, h44⟩ := hc.size f hf
  have hahead := hc.near pre f post hpush
  obtain ⟨out, hd⟩ : ∃ out, SequenceTracker.Delivers (fun f => f ∈ pushes) (pushAll pre)
      ((pushAll pre).push f).1 out :=
    SequenceTracker.push_delivers h.sound.settled (fun _ _ => hf)
  -- soundness first: it turns the new `next_expected` into a length
  have hsound : TrackerRun.Sound (fun f => f ∈ pushes) ⟨pushAll (pre ++ [f]), []⟩ := by
    rw [pushAll_snoc]
    exact h.sound.extend hd.ready hd
  have hle : ∀ g, g ∈ pushes → (frameSeq g).toNat ≤ n := fun g hg => (hc.range g hg).2
  have hbehind := behind_of_sound hsound hle hn
  have hmono : (pushAll pre).stats.nextExpected.toNat
      ≤ (pushAll (pre ++ [f])).stats.nextExpected.toNat := by
    rw [pushAll_snoc]
    exact h.sound.push_mono hle hn hf
  rw [pushAll_snoc] at hmono hbehind
  refine ⟨hsound, ?_, ?_, ?_, ?_⟩
  · intro i hi
    rw [pushAll_snoc] at hi ⊢
    rcases SequenceTracker.push_window hi with hsame | ⟨-, hseq⟩
    · rw [hsame] at hi ⊢
      exact (h.near i hi).trans (Nat.add_le_add_right hmono 64)
    · rw [hseq]
      exact hahead.trans (Nat.add_le_add_right hmono 64)
  · rw [pushAll_snoc]
    exact SequenceTracker.push_gapOk h.gap (hc.range f hf).2 hmono
  · intro g hg hge
    rw [pushAll_snoc] at hge ⊢
    rcases List.mem_append.mp hg with hg | hg
    · -- an older frame is still in its slot, or it has been delivered meanwhile
      obtain ⟨i, hi, hseq⟩ := h.held g hg (hmono.trans hge)
      rcases SequenceTracker.push_keeps h.sound.settled h.near hahead hi with hsame | hmem
      · exact ⟨i, by rw [hsame]; exact hi, by rw [hsame]; exact hseq⟩
      · have hlt := hbehind _ hmem
        rw [h.sound.settled.frameSeq hi, hseq] at hlt
        omega
    · rw [List.mem_singleton] at hg
      subst hg
      rcases Nat.lt_trichotomy (frameSeq g).toNat (pushAll pre).stats.nextExpected.toNat
        with hlt | heq | hgt
      · omega
      · obtain ⟨out', t', -, -, hready, -⟩ :=
          SequenceTracker.push_expected h20 h44 (UInt64.toNat_inj.mp heq)
        have hlt := hbehind g (by rw [hready]; simp)
        omega
      · exact ⟨_, SequenceTracker.push_early h20 h44 (UInt64.lt_iff_toNat_lt.mpr hgt)⟩
  · rw [pushAll_snoc, SequenceTracker.push_drops h.sound.settled h.near h20 h44 hahead, h.drops,
      lateCount_snoc]
    by_cases hlate : (pushAll pre).delivered f = true
    · rw [if_pos ((h.delivered_iff hc hn hf).mp hlate), if_pos hlate, UInt64.ofNat_add]
      rfl
    · rw [if_neg (fun hlt => hlate ((h.delivered_iff hc hn hf).mpr hlt)), if_neg hlate]
      simp

theorem Covers.covered (hc : Covers n pushes) (hn : n < 2 ^ 64 - 1) :
    ∀ pre post, pushes = pre ++ post → Covered n pushes pre := by
  intro pre
  induction pre using List.reverseRecOn with
  | nil => intro _ _; exact covered_nil pushes
  | append_singleton pre f ih =>
    intro post hpush
    rw [List.append_assoc] at hpush
    exact (ih _ hpush).snoc hc hn hpush

end Covering

/-- **The window loses nothing it promises to cover**, as long as the counter does not wrap. -/
theorem window_covers_reordering (n : Nat) (hn : n < 2 ^ 64 - 1) : WindowPromise n := by
  intro pushes hc
  have h := hc.covered hn pushes [] (List.append_nil _).symm
  obtain ⟨hlen, hnext⟩ := next_toNat_of_sound h.sound (fun g hg => (hc.range g hg).2) hn
  have hnum : Numbered 1 (pushAll pushes).ready := h.sound.numbered
  have hset : (pushAll pushes).Settled (fun f => f ∈ pushes) := h.sound.settled
  -- a frame that were still missing would be in the window at its own number
  have hall : (pushAll pushes).ready.length = n := by
    by_contra hne
    obtain ⟨f, hf, hseq⟩ := hc.complete (1 + (pushAll pushes).ready.length) (by omega) (by omega)
    obtain ⟨i, hi, hslot⟩ := h.held f hf (by omega)
    obtain ⟨-, -, -, hlo, -⟩ := hset i hi
    rw [hslot] at hlo
    omega
  have hword : (pushAll pushes).stats.nextExpected = UInt64.ofNat (n + 1) := by
    apply UInt64.toNat_inj.mp
    rw [hnext, hall, toNat_ofNat_of_lt (by omega), Nat.add_comm]
  refine ⟨?_, ?_, hword, ?_, ?_, h.drops, ?_⟩
  · rw [numbered_toNat (s := 1) hnum (by omega), hall]
  · intro f
    refine ⟨h.sound.sound f, fun hf => ?_⟩
    obtain ⟨g, hg, hseq⟩ := (numbered_mem_iff hnum (Nat.lt_of_le_of_lt hlen hn)
      (frameSeq f).toNat).mpr ⟨(hc.range f hf).1, by have := (hc.range f hf).2; omega⟩
    rw [hc.same f hf g (h.sound.sound g hg) (UInt64.toNat_inj.mp hseq.symm)]
    exact hg
  · intro i
    rw [Bool.eq_false_iff]
    intro hi
    obtain ⟨-, -, -, hlo, hmem⟩ := hset i hi
    have hle := (hc.range _ hmem).2
    rw [hset.frameSeq hi] at hle
    omega
  · unfold SequenceTracker.gapPending
    rw [bne_eq_false_iff_eq]
    by_contra hpend
    obtain ⟨-, hle, hend⟩ := h.gap hpend
    omega
  · intro pre f post hpush i hi
    have hpre := hc.covered hn pre _ hpush
    rw [pushAll_snoc]
    exact SequenceTracker.push_keeps hpre.sound.settled hpre.near (hc.near pre f post hpush) hi

/-- A frame of the simplest type with a given number. -/
def heartbeatFrame (seq : UInt64) : List UInt8 :=
  (EncodeCall.heartbeat {} seq 0 0).bytes

theorem heartbeatFrame_length (seq : UInt64) : (heartbeatFrame seq).length = 28 :=
  WireHeartbeat.image.put_length _

theorem frameSeq_heartbeatFrame (seq : UInt64) : frameSeq (heartbeatFrame seq) = seq := by
  have hhdr := headerOf_put (writeHeader {} .heartbeat seq 0)
    (Library.ByteImage.Image.u64.put (storeBe64 0))
  rw [decodeHeader_writeHeader {} rfl] at hhdr
  exact frameSeq_eq hhdr

/-- Two frames that arrive in the wrong order, the first of them twice. -/
def swappedPair : List (List UInt8) := [heartbeatFrame 2, heartbeatFrame 1, heartbeatFrame 2]

theorem window_covers_reordering_swapped :
    (pushAll swappedPair).ready.map (fun f => (frameSeq f).toNat) = [1, 2] ∧
      (pushAll swappedPair).stats.drops = 1 := by
  have hmem : ∀ f ∈ swappedPair, f = heartbeatFrame 1 ∨ f = heartbeatFrame 2 := by
    intro f hf
    simp only [swappedPair, List.mem_cons, List.not_mem_nil, or_false] at hf
    tauto
  have hrange : ∀ f ∈ swappedPair, 1 ≤ (frameSeq f).toNat ∧ (frameSeq f).toNat ≤ 2 := by
    intro f hf
    rcases hmem f hf with rfl | rfl <;> rw [frameSeq_heartbeatFrame] <;> decide
  have hc : Covers 2 swappedPair := by
    refine ⟨?_, hrange, ?_, ?_, ?_⟩
    · intro f hf
      rcases hmem f hf with rfl | rfl <;> rw [heartbeatFrame_length] <;> decide
    · intro f hf g hg hseq
      rcases hmem f hf with rfl | rfl <;> rcases hmem g hg with rfl | rfl <;>
        simp [frameSeq_heartbeatFrame] at hseq ⊢
    · intro k h1 hk
      obtain rfl | rfl : k = 1 ∨ k = 2 := by omega
      · exact ⟨heartbeatFrame 1, by simp [swappedPair], by rw [frameSeq_heartbeatFrame]; rfl⟩
      · exact ⟨heartbeatFrame 2, by simp [swappedPair], by rw [frameSeq_heartbeatFrame]; rfl⟩
    · intro pre f post hpush
      have hle := (hrange f (by rw [hpush]; simp)).2
      omega
  obtain ⟨hseqs, -, -, -, -, hdrops, -⟩ := window_covers_reordering 2 (by decide) swappedPair hc
  refine ⟨hseqs, hdrops.trans ?_⟩
  decide +kernel

/-! ## The counter wraps after `2^64 - 1` frames -/

/-- With nothing buffered, a frame that is expected moves the counter by one. -/
theorem SequenceTracker.push_idle {t : SequenceTracker} {framed : List UInt8}
    (hidle : ∀ i, (t.window i).occupied = false) (h20 : 20 ≤ framed.length)
    (h44 : framed.length ≤ 44) (hseq : frameSeq framed = t.stats.nextExpected) :
    (t.push framed).1.stats.nextExpected = t.stats.nextExpected + 1 ∧
      (t.push framed).1.window = t.window := by
  obtain ⟨out, t', hf, hwin, -, hstats, -⟩ := push_expected h20 h44 hseq
  rw [hwin, hstats]
  cases hf with
  | stop _ => exact ⟨rfl, rfl⟩
  | pass hm _ =>
    have hocc := hm.1
    simp only [accept, hidle] at hocc
    cases hocc

/-- The frames `1 … k`, each once and in order. -/
def inOrder (k : Nat) : List (List UInt8) :=
  (List.range' 1 k).map fun j => heartbeatFrame (UInt64.ofNat j)

theorem inOrder_succ (k : Nat) :
    inOrder (k + 1) = inOrder k ++ [heartbeatFrame (UInt64.ofNat (1 + k))] := by
  unfold inOrder
  rw [List.range'_1_concat, List.map_append]
  rfl

theorem pushAll_inOrder (k : Nat) :
    (pushAll (inOrder k)).stats.nextExpected = UInt64.ofNat (1 + k) ∧
      ∀ i, ((pushAll (inOrder k)).window i).occupied = false := by
  induction k with
  | zero => exact ⟨rfl, fun _ => rfl⟩
  | succ k ih =>
    obtain ⟨hnext, hidle⟩ := ih
    have hlen := heartbeatFrame_length (UInt64.ofNat (1 + k))
    have hstep := SequenceTracker.push_idle hidle (by omega) (by omega)
      ((frameSeq_heartbeatFrame (UInt64.ofNat (1 + k))).trans hnext.symm)
    rw [inOrder_succ, pushAll_snoc, hstep.1, hstep.2, hnext]
    refine ⟨?_, hidle⟩
    rw [← Nat.add_assoc, UInt64.ofNat_add (1 + k)]
    rfl

/-- The place of a push in the list `1 … n, 1`. -/
theorem inOrder_split {n : Nat} {pre post : List (List UInt8)} {f : List UInt8}
    (hpush : inOrder n ++ [heartbeatFrame 1] = pre ++ f :: post) :
    f = heartbeatFrame 1 ∨
      (pre = inOrder pre.length ∧ f = heartbeatFrame (UInt64.ofNat (1 + pre.length))) := by
  have hlen : (inOrder n).length = n := by
    unfold inOrder
    rw [List.length_map, List.length_range']
  rcases List.append_eq_append_iff.mp hpush with ⟨mid, -, hmid⟩ | ⟨mid, hpre, hmid⟩
  · cases mid with
    | nil => exact Or.inl (List.cons.inj hmid).1.symm
    | cons a mid => simp at hmid
  · cases mid with
    | nil => exact Or.inl (List.cons.inj hmid).1
    | cons a mid =>
      obtain ⟨rfl, -⟩ := List.cons.inj hmid
      have hle : pre.length + 1 ≤ n := by
        rw [← hlen, hpre, List.length_append, List.length_cons]
        omega
      -- `pre ++ [f]` is the list of the first `pre.length + 1` frames
      have htake : pre ++ [f] = inOrder (pre.length + 1) := by
        have h := congrArg (List.take (pre.length + 1)) hpre
        unfold inOrder at h ⊢
        rw [← List.map_take, List.take_range'_of_length_ge hle, List.take_append,
          List.take_of_length_le (Nat.le_succ _)] at h
        simpa using h.symm
      rw [inOrder_succ] at htake
      obtain ⟨hp, hf⟩ := List.append_inj' htake rfl
      exact Or.inr ⟨hp, (List.cons.inj hf).1⟩

/-- The whole range of numbers in order, and then number 1 once more. -/
theorem covers_wrap {n : Nat} (hn : n = 2 ^ 64 - 1) :
    Covers n (inOrder n ++ [heartbeatFrame 1]) := by
  have hmem : ∀ f ∈ inOrder n ++ [heartbeatFrame 1],
      ∃ j, 1 ≤ j ∧ j ≤ n ∧ f = heartbeatFrame (UInt64.ofNat j) := by
    intro f hf
    rcases List.mem_append.mp hf with hf | hf
    · obtain ⟨j, hj, rfl⟩ := List.mem_map.mp hf
      rw [List.mem_range'_1] at hj
      exact ⟨j, hj.1, by omega, rfl⟩
    · rw [List.mem_singleton] at hf
      exact ⟨1, by omega, by omega, hf⟩
  refine ⟨?_, ?_, ?_, ?_, ?_⟩
  · intro f hf
    obtain ⟨j, -, -, rfl⟩ := hmem f hf
    rw [heartbeatFrame_length]
    decide
  · intro f hf
    obtain ⟨j, h1, hj, rfl⟩ := hmem f hf
    rw [frameSeq_heartbeatFrame, toNat_ofNat_of_lt (by omega)]
    exact ⟨h1, hj⟩
  · intro f hf g hg hseq
    obtain ⟨j, -, -, rfl⟩ := hmem f hf
    obtain ⟨k, -, -, rfl⟩ := hmem g hg
    rw [frameSeq_heartbeatFrame, frameSeq_heartbeatFrame] at hseq
    rw [hseq]
  · intro k h1 hk
    refine ⟨heartbeatFrame (UInt64.ofNat k), ?_, ?_⟩
    · refine List.mem_append_left _ (List.mem_map.mpr ⟨k, ?_, rfl⟩)
      rw [List.mem_range'_1]
      omega
    · rw [frameSeq_heartbeatFrame, toNat_ofNat_of_lt (by omega)]
  · intro pre f post hpush
    -- either `f` is one of the ordered frames, or it is the repeated number 1
    rcases inOrder_split hpush with hone | ⟨hpre, hf⟩
    · rw [hone, frameSeq_heartbeatFrame]
      exact Nat.le_add_left_of_le (by decide)
    · rw [hpre, hf, frameSeq_heartbeatFrame, (pushAll_inOrder _).1]
      exact Nat.le_add_right _ _

/-- **At the wrap the promise breaks.** After frame `2^64 - 1` the counter is 0, so a repeated frame 1
counts as early: it is buffered again, and the window does not end empty.  No gap is pending, since
`gap_start_` is set to the counter. -/
theorem window_promise_fails_at_wrap : ¬ WindowPromise (2 ^ 64 - 1) := by
  intro h
  obtain ⟨n, hn⟩ : ∃ n : Nat, n = 2 ^ 64 - 1 := ⟨_, rfl⟩
  rw [← hn] at h
  obtain ⟨-, -, -, hempty, -⟩ := h _ (covers_wrap hn)
  have hnext : (pushAll (inOrder n)).stats.nextExpected = 0 := by
    rw [(pushAll_inOrder n).1, hn]
    decide
  have hlen := heartbeatFrame_length 1
  obtain ⟨hocc, -⟩ := SequenceTracker.push_early (t := pushAll (inOrder n))
    (show 20 ≤ (heartbeatFrame 1).length by omega) (by omega)
    (by rw [hnext, frameSeq_heartbeatFrame]; decide)
  have hfree := hempty (slotIndex (frameSeq (heartbeatFrame 1)))
  rw [pushAll_snoc, hocc] at hfree
  cases hfree

end MarketDataPipeline.Sequence
