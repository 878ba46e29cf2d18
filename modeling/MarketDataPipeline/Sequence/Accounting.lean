/-
# MarketDataPipeline.Sequence.Accounting — where the received frames are.

A frame that `push` reads is delivered, buffered, or counted in `drops`, at once or when a later frame
takes its slot.  `push_effect` says what a push does to the three numbers; only one of its four outcomes
leaves them all as they are: an early frame that finds its own number in the window.  `store_ooo`
returns there without counting.  So the numbers add up exactly as long as that does not happen
(`frames_accounted`).
-/
import Mathlib.Algebra.BigOperators.Group.Finset.Piecewise
import MarketDataPipeline.Sequence.Window

namespace MarketDataPipeline.Sequence

open MarketDataPipeline.Wire

/-! ## Occupied slots -/

/-- One slot is written. -/
theorem card_occupied_update (w : Fin kReorderWindow → Slot) (i : Fin kReorderWindow) (s : Slot) :
    (Finset.univ.filter fun j => (Function.update w i s j).occupied = true).card
        + (if (w i).occupied = true then 1 else 0)
      = (Finset.univ.filter fun j => (w j).occupied = true).card
        + (if s.occupied = true then 1 else 0) := by
  rw [Finset.card_filter, Finset.card_filter]
  have hnew := Finset.add_sum_erase Finset.univ
    (fun j => if (Function.update w i s j).occupied = true then 1 else 0) (Finset.mem_univ i)
  have hold := Finset.add_sum_erase Finset.univ
    (fun j => if (w j).occupied = true then 1 else 0) (Finset.mem_univ i)
  have hrest : ∑ j ∈ Finset.univ.erase i,
        (if (Function.update w i s j).occupied = true then 1 else 0)
      = ∑ j ∈ Finset.univ.erase i, if (w j).occupied = true then 1 else 0 := by
    refine Finset.sum_congr rfl fun j hj => ?_
    rw [Function.update_of_ne (Finset.ne_of_mem_erase hj)]
  rw [Function.update_self, hrest] at hnew
  omega

namespace SequenceTracker

variable {t t' : SequenceTracker} {framed : List UInt8}

theorem occupancy_update {i : Fin kReorderWindow} {s : Slot}
    (h : t'.window = Function.update t.window i s) :
    t'.occupancy + (if (t.window i).occupied = true then 1 else 0)
      = t.occupancy + (if s.occupied = true then 1 else 0) := by
  unfold occupancy
  rw [h]
  exact card_occupied_update t.window i s

/-- Every pass of the flush loop frees one slot. -/
theorem Flushes.occupancy {out : List (List UInt8)} (h : Flushes t out t') :
    t'.occupancy + out.length = t.occupancy := by
  induction h with
  | stop _ => rfl
  | @pass t t' out hm _ ih =>
    have hfreed := occupancy_update (show t.deliverSlot.window = _ from rfl)
    rw [if_pos hm.1, if_neg (by simp)] at hfreed
    rw [List.length_cons]
    omega

/-! ## What a push does to the numbers -/

/-- An early frame whose number is in the window already. -/
def Repeats (t : SequenceTracker) (framed : List UInt8) : Prop :=
  20 ≤ framed.length ∧ framed.length ≤ 44 ∧ t.stats.nextExpected < frameSeq framed ∧
    (t.window (slotIndex (frameSeq framed))).occupied = true ∧
    (t.window (slotIndex (frameSeq framed))).seq = frameSeq framed

/-- **The four outcomes for the numbers**: frames are delivered, one is dropped, one is buffered, or
nothing is counted. -/
inductive PushEffect (t : SequenceTracker) (framed : List UInt8) (t' : SequenceTracker) : Prop
  | delivered (k : Nat) (fresh : ¬ t.Repeats framed)
      (next : t'.stats.nextExpected = t.stats.nextExpected + UInt64.ofNat (1 + k))
      (drops : t'.stats.drops = t.stats.drops) (slots : t'.occupancy + k = t.occupancy)
  | dropped (fresh : ¬ t.Repeats framed) (next : t'.stats.nextExpected = t.stats.nextExpected)
      (drops : t'.stats.drops = t.stats.drops + 1) (slots : t'.occupancy = t.occupancy)
  | buffered (fresh : ¬ t.Repeats framed) (next : t'.stats.nextExpected = t.stats.nextExpected)
      (drops : t'.stats.drops = t.stats.drops) (slots : t'.occupancy = t.occupancy + 1)
  | repeated (again : t.Repeats framed) (next : t'.stats.nextExpected = t.stats.nextExpected)
      (drops : t'.stats.drops = t.stats.drops) (slots : t'.occupancy = t.occupancy)

theorem push_effect_expected (h20 : 20 ≤ framed.length) (h44 : framed.length ≤ 44)
    (hexp : frameSeq framed = t.stats.nextExpected) : PushEffect t framed (t.push framed).1 := by
  obtain ⟨out, t', hflush, hwindow, -, hstats, -, -⟩ := push_expected h20 h44 hexp
  have hslots : (t.push framed).1.occupancy + out.length = t.occupancy := by
    have hpasses := hflush.occupancy
    unfold occupancy at hpasses ⊢
    rw [hwindow]
    exact hpasses
  refine .delivered out.length ?_ ?_ ?_ hslots
  · rintro ⟨-, -, hlt, -⟩
    rw [hexp] at hlt
    exact absurd hlt (UInt64.lt_irrefl _)
  · rw [hstats, hflush.nextExpected, UInt64.ofNat_add, ← UInt64.add_assoc]
    rfl
  · rw [hstats, hflush.drops]
    rfl

/-- The drop counter after an early frame. -/
theorem buffer_drops (t : SequenceTracker) (framed : List UInt8) :
    (t.buffer framed).stats.drops =
      if (t.window (slotIndex (frameSeq framed))).occupied &&
          (t.window (slotIndex (frameSeq framed))).seq == frameSeq framed then
        t.stats.drops
      else if (t.window (slotIndex (frameSeq framed))).occupied then t.stats.drops + 1
      else t.stats.drops := by
  unfold buffer storeOoo
  rw [extendGap_stats]
  dsimp only
  split_ifs <;> rfl

theorem push_effect_early (h20 : 20 ≤ framed.length) (h44 : framed.length ≤ 44)
    (hgt : t.stats.nextExpected < frameSeq framed) : PushEffect t framed (t.buffer framed) := by
  have hwindow := buffer_window t framed
  have hnext := buffer_nextExpected t framed
  have hdrops := buffer_drops t framed
  by_cases hdup : ((t.window (slotIndex (frameSeq framed))).occupied &&
      (t.window (slotIndex (frameSeq framed))).seq == frameSeq framed) = true
  · rw [if_pos hdup] at hwindow hdrops
    have hsame := Bool.and_eq_true_iff.mp hdup
    refine .repeated ⟨h20, h44, hgt, hsame.1, beq_iff_eq.mp hsame.2⟩ hnext hdrops ?_
    unfold occupancy
    rw [hwindow]
  · rw [if_neg hdup] at hwindow hdrops
    have hfresh : ¬ t.Repeats framed := by
      rintro ⟨-, -, -, hocc, hseq⟩
      exact hdup (Bool.and_eq_true_iff.mpr ⟨hocc, beq_iff_eq.mpr hseq⟩)
    have hslots := occupancy_update hwindow
    rw [if_pos rfl] at hslots
    -- the slot was free, or its frame is evicted
    by_cases hocc : (t.window (slotIndex (frameSeq framed))).occupied = true
    · rw [if_pos hocc] at hslots hdrops
      exact .dropped hfresh hnext hdrops (Nat.add_right_cancel hslots)
    · rw [if_neg hocc] at hslots hdrops
      exact .buffered hfresh hnext hdrops hslots

theorem push_effect (h20 : 20 ≤ framed.length) (h44 : framed.length ≤ 44) :
    PushEffect t framed (t.push framed).1 := by
  rcases push_cases t framed with ⟨hbad, -⟩ | ⟨-, -, hcase⟩
  · exact absurd ⟨h20, h44⟩ hbad
  rcases hcase with ⟨hexp, -⟩ | ⟨hlt, heq⟩ | ⟨hgt, heq⟩
  · exact push_effect_expected h20 h44 hexp
  · rw [heq]
    refine .dropped ?_ rfl rfl rfl
    rintro ⟨-, -, hgt, -⟩
    rw [UInt64.lt_iff_toNat_lt] at hlt hgt
    omega
  · rw [heq]
    exact push_effect_early h20 h44 hgt

/-- The sum of the three numbers, `next_expected` counted from 0. -/
def account (t : SequenceTracker) : Nat :=
  t.stats.nextExpected.toNat + t.stats.drops.toNat + t.occupancy

/-- Neither counter has wrapped on the way from `t` to `t'`. -/
def Grows (t t' : SequenceTracker) : Prop :=
  t.stats.nextExpected ≤ t'.stats.nextExpected ∧ t.stats.drops ≤ t'.stats.drops

theorem occupancy_le_window (t : SequenceTracker) : t.occupancy ≤ 64 :=
  (Finset.card_le_univ _).trans (Nat.le_of_eq (Fintype.card_fin kReorderWindow))

/-- A push adds one to the account, unless it repeats a buffered number. -/
theorem PushEffect.account {t' : SequenceTracker} (h : PushEffect t framed t') (hgrow : t.Grows t') :
    (t.Repeats framed ∧ t'.account = t.account) ∨
      (¬ t.Repeats framed ∧ t'.account = t.account + 1) := by
  obtain ⟨hnext, hdrops⟩ := hgrow
  rw [UInt64.le_iff_toNat_le] at hnext hdrops
  unfold SequenceTracker.account
  cases h with
  | delivered k fresh next drops slots =>
    have hle := occupancy_le_window t
    refine Or.inr ⟨fresh, ?_⟩
    rw [next, UInt64.toNat_add, UInt64.toNat_ofNat'] at hnext ⊢
    rw [drops]
    have hlt := t.stats.nextExpected.toNat_lt
    omega
  | dropped fresh next drops slots =>
    refine Or.inr ⟨fresh, ?_⟩
    rw [drops, UInt64.toNat_add, UInt64.toNat_one] at hdrops ⊢
    rw [next, slots]
    have hlt := t.stats.drops.toNat_lt
    omega
  | buffered fresh next drops slots =>
    refine Or.inr ⟨fresh, ?_⟩
    rw [next, drops, slots]
    omega
  | repeated again next drops slots =>
    refine Or.inl ⟨again, ?_⟩
    rw [next, drops, slots]

/-- With a small account nothing wraps. -/
theorem PushEffect.grows {t' : SequenceTracker} (h : PushEffect t framed t')
    (hsmall : t.account + 1 < 2 ^ 64) : t.Grows t' := by
  unfold SequenceTracker.account at hsmall
  unfold Grows
  rw [UInt64.le_iff_toNat_le, UInt64.le_iff_toNat_le]
  cases h with
  | delivered k fresh next drops slots =>
    rw [next, drops, UInt64.toNat_add, UInt64.toNat_ofNat']
    omega
  | dropped fresh next drops slots =>
    rw [next, drops, UInt64.toNat_add, UInt64.toNat_one]
    omega
  | buffered fresh next drops slots => rw [next, drops]; omega
  | repeated again next drops slots => rw [next, drops]; omega

end SequenceTracker

/-! ## Runs -/

/-- A push of a frame of 20 to 44 bytes. -/
def TrackerOp.isFrame : TrackerOp → Bool
  | .push framed => decide (20 ≤ framed.length ∧ framed.length ≤ 44)
  | _ => false

/-- The number of frames received. -/
def received (ops : List TrackerOp) : Nat := ops.countP TrackerOp.isFrame

/-- `next_expected` and `drops` stay below 2^64: no call of the run makes one of them wrap. -/
def CountersGrow (ops : List TrackerOp) : Prop :=
  ∀ pre op, pre ++ [op] <+: ops → (runOps pre).tracker.Grows (runOps (pre ++ [op])).tracker

/-- No frame arrives early with a number that is in the window already. -/
def NoRepeats (ops : List TrackerOp) : Prop :=
  ∀ pre framed, pre ++ [.push framed] <+: ops → ¬ (runOps pre).tracker.Repeats framed

theorem received_snoc (pre : List TrackerOp) (op : TrackerOp) :
    received (pre ++ [op]) = received pre + if op.isFrame then 1 else 0 := by
  unfold received
  rw [List.countP_append, List.countP_singleton]

theorem CountersGrow.init {pre : List TrackerOp} {op : TrackerOp}
    (h : CountersGrow (pre ++ [op])) : CountersGrow pre :=
  fun p o hp => h p o (hp.trans (List.prefix_append pre [op]))

theorem noRepeats_snoc (pre : List TrackerOp) (op : TrackerOp) :
    NoRepeats (pre ++ [op]) ↔
      NoRepeats pre ∧ ∀ framed, op = .push framed → ¬ (runOps pre).tracker.Repeats framed := by
  constructor
  · intro h
    refine ⟨fun p f hp => h p f (hp.trans (List.prefix_append pre [op])), ?_⟩
    rintro framed rfl
    exact h pre framed (List.prefix_refl _)
  · rintro ⟨hpre, hlast⟩ p f hp
    rcases List.prefix_concat_iff.mp hp with heq | hp
    · obtain ⟨rfl, hop⟩ := List.append_inj' heq rfl
      cases hop
      exact hlast f rfl
    · exact hpre p f hp

theorem SequenceTracker.Grows.refl (t : SequenceTracker) : t.Grows t :=
  ⟨UInt64.le_refl _, UInt64.le_refl _⟩

/-- A call that is no frame of 20 to 44 bytes leaves the account alone and repeats nothing. -/
theorem step_no_frame {r : TrackerRun} {op : TrackerOp} (h : op.isFrame = false) :
    (r.step op).tracker.account = r.tracker.account ∧ r.tracker.Grows (r.step op).tracker ∧
      ∀ framed, op = .push framed → ¬ r.tracker.Repeats framed := by
  cases op with
  | push framed =>
    have hsize : ¬ (20 ≤ framed.length ∧ framed.length ≤ 44) := of_decide_eq_false h
    have hstep : (r.step (.push framed)).tracker = r.tracker := by
      rcases SequenceTracker.push_cases r.tracker framed with ⟨-, heq⟩ | ⟨h20, h44, -⟩
      · show (r.tracker.push framed).1 = _
        rw [heq]
      · exact absurd ⟨h20, h44⟩ hsize
    rw [hstep]
    refine ⟨rfl, .refl _, ?_⟩
    rintro _ ⟨rfl⟩ ⟨h20, h44, -⟩
    exact hsize ⟨h20, h44⟩
  | clearReady => exact ⟨rfl, .refl r.tracker, fun _ hop => nomatch hop⟩
  | clearGap => exact ⟨rfl, .refl r.tracker, fun _ hop => nomatch hop⟩
  | noteRecovery _ => exact ⟨rfl, .refl r.tracker, fun _ hop => nomatch hop⟩

theorem step_frame {r : TrackerRun} {framed : List UInt8}
    (h : (TrackerOp.push framed).isFrame = true) :
    SequenceTracker.PushEffect r.tracker framed (r.step (.push framed)).tracker := by
  have hsize : 20 ≤ framed.length ∧ framed.length ≤ 44 := of_decide_eq_true h
  exact SequenceTracker.push_effect hsize.1 hsize.2

/-- The account never exceeds what was received, and equals it as long as nothing is repeated. -/
theorem account_le_received (ops : List TrackerOp) (hgrow : CountersGrow ops) :
    (runOps ops).tracker.account ≤ received ops + 1 ∧
      ((runOps ops).tracker.account = received ops + 1 ↔ NoRepeats ops) := by
  induction ops using List.reverseRecOn with
  | nil =>
    have hfresh : (runOps []).tracker.account = 1 := by decide
    rw [hfresh]
    refine ⟨le_rfl, fun _ p f hp => ?_, fun _ => rfl⟩
    simp at hp
  | append_singleton pre op ih =>
    obtain ⟨hle, hiff⟩ := ih hgrow.init
    rw [noRepeats_snoc, ← hiff, received_snoc, runOps_snoc]
    cases hop : op.isFrame with
    | false =>
      obtain ⟨hsame, -, hfresh⟩ := step_no_frame (r := runOps pre) hop
      rw [hsame]
      exact ⟨hle, fun h => ⟨h, hfresh⟩, fun h => h.1⟩
    | true =>
      cases op with
      | push framed =>
        have hgrows := hgrow pre (.push framed) (List.prefix_refl _)
        rw [runOps_snoc] at hgrows
        rw [if_pos rfl]
        rcases (step_frame hop).account hgrows with ⟨hrep, heq⟩ | ⟨hfresh, heq⟩
        · -- from here on the account is one short
          rw [heq]
          refine ⟨by omega, fun h => ?_, fun h => absurd hrep (h.2 framed rfl)⟩
          omega
        · rw [heq]
          refine ⟨by omega, fun h => ⟨by omega, ?_⟩, fun h => by omega⟩
          rintro _ ⟨rfl⟩
          exact hfresh
      | clearReady => cases hop
      | clearGap => cases hop
      | noteRecovery _ => cases hop

theorem one_le_nextExpected (ops : List TrackerOp) (hgrow : CountersGrow ops) :
    1 ≤ (runOps ops).tracker.stats.nextExpected.toNat := by
  induction ops using List.reverseRecOn with
  | nil => decide
  | append_singleton pre op ih =>
    have hstep := (hgrow pre op (List.prefix_refl _)).1
    exact (ih hgrow.init).trans (UInt64.le_iff_toNat_le.mp hstep)

/-- Fewer than 2^64 - 1 frames make no counter wrap. -/
theorem countersGrow_of_received (ops : List TrackerOp) (h : received ops + 1 < 2 ^ 64) :
    CountersGrow ops := by
  induction ops using List.reverseRecOn with
  | nil =>
    intro pre op hp
    simp at hp
  | append_singleton pre op ih =>
    rw [received_snoc] at h
    have hgrow : CountersGrow pre := ih (by omega)
    intro p o hp
    rcases List.prefix_concat_iff.mp hp with heq | hp
    · obtain ⟨rfl, hop⟩ := List.append_inj' heq rfl
      cases hop
      rw [runOps_snoc]
      cases hframe : op.isFrame with
      | false => exact (step_no_frame hframe).2.1
      | true =>
        rw [hframe, if_pos rfl] at h
        have hle := (account_le_received p hgrow).1
        cases op with
        | push framed => exact (step_frame hframe).grows (by omega)
        | clearReady => cases hframe
        | clearGap => cases hframe
        | noteRecovery _ => cases hframe
    · exact hgrow p o hp

/-- **Every received frame is delivered, buffered or counted in `drops`, exactly when none repeats a
buffered number.**  A late duplicate is counted, an evicted frame is counted, but a duplicate of a
frame that is still in the window leaves `store_ooo` uncounted, and no later call makes up for it. -/
theorem frames_accounted (ops : List TrackerOp) (hgrow : CountersGrow ops) :
    received ops = ((runOps ops).tracker.stats.nextExpected.toNat - 1)
        + (runOps ops).tracker.stats.drops.toNat + (runOps ops).tracker.occupancy ↔
      NoRepeats ops := by
  obtain ⟨-, hiff⟩ := account_le_received ops hgrow
  have hone := one_le_nextExpected ops hgrow
  rw [← hiff]
  unfold SequenceTracker.account
  omega

/-- The calls of `push` with the heartbeats of the given numbers. -/
def pushHeartbeats (seqs : List UInt64) : List TrackerOp :=
  seqs.map fun seq => .push (WireHeartbeat.image.put (encodeHeartbeat {} seq (10 * seq) seq))

/-- A late frame and an evicted one. -/
theorem frames_accounted_sample : NoRepeats (pushHeartbeats [1, 3, 67, 1]) :=
  (frames_accounted (pushHeartbeats [1, 3, 67, 1])
    (countersGrow_of_received _ (by decide +kernel))).mp (by decide +kernel)

/-- The second copy of frame 2 is nowhere: nothing is delivered or dropped, and one slot is
occupied. -/
theorem buffered_duplicate_uncounted :
    let t := (runOps (pushHeartbeats [2, 2])).tracker
    CountersGrow (pushHeartbeats [2, 2]) ∧ received (pushHeartbeats [2, 2]) = 2 ∧
      received (pushHeartbeats [2, 2])
        ≠ (t.stats.nextExpected.toNat - 1) + t.stats.drops.toNat + t.occupancy :=
  ⟨countersGrow_of_received _ (by decide +kernel), by decide +kernel, by decide +kernel⟩

end MarketDataPipeline.Sequence
