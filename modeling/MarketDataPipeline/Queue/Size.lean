/-
# MarketDataPipeline.Queue.Size — what `size_approx` can return.

`size_approx` loads `head_`, then `tail_`, and subtracts.  Any thread may call it, so the two loads are
two moments of a run of the ring, and other steps may lie between them.

Neither index moves with the values: a push publishes its slot before it stores `head_`, a pop releases
its slot before it stores `tail_`.  So the difference is the number of values outstanding at the first
load, less one if a push is between its two stores, plus one if a pop is, less the pops that return
before the second load (`sizeApprox_word`).  That can fall below zero, and the word then wraps; and it
can be one more than the ring holds.
-/
import MarketDataPipeline.Queue.Spsc

namespace MarketDataPipeline.Queue

variable {T : Type} {k : Nat}

/-- `size_approx`, with the states at the loads of `head_` and of `tail_`. -/
def sizeApprox (atHead atTail : SpscState T k) : UInt64 := atHead.head - atTail.tail

namespace SpscState

variable {s : SpscState T k}

/-- A push has stored its sequence and not yet `head_`. -/
def publishing (s : SpscState T k) : Nat :=
  match s.producer with
  | .published _ => 1
  | _ => 0

/-- A pop has stored its sequence and not yet `tail_`. -/
def releasing (s : SpscState T k) : Nat :=
  match s.consumer with
  | .released _ => 1
  | _ => 0

/-! ## The two indices -/

/-- `tail_` is stored last, so until then it is the position that the pop has loaded. -/
def TailOk (s : SpscState T k) : Prop :=
  match s.consumer with
  | .idle => True
  | .loaded pos | .claimed pos | .taken pos | .released pos => s.tail = pos

theorem TailOk.stepConsumer (h : s.TailOk) (moved : T → T) : (s.stepConsumer moved).TailOk := by
  unfold TailOk at h
  unfold SpscState.stepConsumer
  cases hpc : s.consumer with
  | idle => exact rfl
  | loaded pos =>
    rw [hpc] at h
    dsimp only
    split
    case isTrue => exact True.intro
    case isFalse => exact h
  | claimed pos | taken pos =>
    rw [hpc] at h
    exact h
  | released pos => exact True.intro

theorem TailOk.stepProducer (h : s.TailOk) (moved : T → T) (next : T) :
    (s.stepProducer moved next).TailOk := by
  obtain ⟨hconsumer, htail, -⟩ := stepProducer_frame moved next s
  unfold TailOk at h ⊢
  rw [hconsumer, htail]
  exact h

theorem HeadOk.stepConsumer (h : s.HeadOk) (moved : T → T) : (s.stepConsumer moved).HeadOk := by
  obtain ⟨hproducer, hhead, -⟩ := stepConsumer_frame moved s
  unfold HeadOk at h ⊢
  rw [hproducer, hhead]
  exact h

theorem indices_step (h : s.HeadOk ∧ s.TailOk) (moved : T → T) (turn : Turn T) :
    (s.step moved turn).HeadOk ∧ (s.step moved turn).TailOk := by
  cases turn with
  | producer next => exact ⟨h.1.stepProducer moved next, h.2.stepProducer moved next⟩
  | consumer => exact ⟨h.1.stepConsumer moved, h.2.stepConsumer moved⟩

/-- `head_` is behind the pushes by the one that is between its two stores. -/
theorem Inv.head_add (h : s.Inv) (hh : s.HeadOk) :
    s.head + UInt64.ofNat s.publishing = UInt64.ofNat s.pushed.length := by
  have hp := h.producer
  unfold HeadOk at hh
  unfold ProducerOk at hp
  unfold publishing
  cases hpc : s.producer with
  | idle =>
    simp only [hpc] at hp ⊢
    rw [hp, ← UInt64.ofNat_add]
    rfl
  | loaded pos =>
    simp only [hpc] at hp ⊢
    rw [hp.1, ← UInt64.ofNat_add]
    rfl
  | claimed pos | written pos =>
    simp only [hpc] at hp hh ⊢
    rw [hh, hp.1, ← UInt64.ofNat_add]
    rfl
  | published pos =>
    simp only [hpc] at hp hh ⊢
    rw [hh]
    exact hp

/-- `tail_` counts the pops that have returned. -/
theorem Inv.tail_eq (h : s.Inv) (ht : s.TailOk) :
    s.tail = UInt64.ofNat s.returned.length ∧
      s.returned.length + s.releasing = s.popped.length := by
  have hc := h.consumer
  unfold TailOk at ht
  unfold ConsumerOk at hc
  unfold releasing
  cases hpc : s.consumer with
  | idle =>
    simp only [hpc] at hc ⊢
    rw [hc.2]
    exact ⟨hc.1, rfl⟩
  | loaded pos =>
    simp only [hpc] at hc ⊢
    rw [hc.2.2]
    exact ⟨hc.1, rfl⟩
  | claimed pos | taken pos =>
    simp only [hpc] at hc ht ⊢
    rw [hc.2.1, ht]
    exact ⟨hc.1, rfl⟩
  | released pos =>
    simp only [hpc] at hc ht ⊢
    obtain ⟨hpos, hret⟩ := hc
    rw [← hret, List.length_append, List.length_singleton, ← ofNat_succ] at hpos
    rw [ht, ← hret, List.length_append, List.length_singleton]
    exact ⟨(UInt64.add_left_inj 1).mp hpos, rfl⟩

theorem releasing_le (s : SpscState T k) : s.releasing ≤ 1 := by
  unfold releasing
  split <;> decide

theorem returned_step (moved : T → T) (s : SpscState T k) (turn : Turn T) :
    s.returned.length ≤ (s.step moved turn).returned.length := by
  cases turn with
  | producer next => exact (congrArg List.length (stepProducer_frame moved next s).2.2.2.2).ge
  | consumer =>
    show s.returned.length ≤ (s.stepConsumer moved).returned.length
    have heffect := pop_effect moved s
    split at heffect
    · rw [heffect]
    · rw [heffect.2]
      simp
    · rw [heffect.2]

theorem returned_foldl (moved : T → T) (turns : List (Turn T)) (s : SpscState T k) :
    s.returned.length ≤ (turns.foldl (SpscState.step moved) s).returned.length := by
  induction turns generalizing s with
  | nil => exact Nat.le_refl _
  | cons turn turns ih => exact (returned_step moved s turn).trans (ih _)

end SpscState

theorem runSpsc_indices (moved : T → T) (blank : T) (turns : List (Turn T)) :
    (runSpsc k moved blank turns).HeadOk ∧ (runSpsc k moved blank turns).TailOk :=
  List.foldlRecOn (motive := fun s : SpscState T k => s.HeadOk ∧ s.TailOk) turns _
    ⟨True.intro, True.intro⟩ fun _ h turn _ => SpscState.indices_step h moved turn

/-! ## The difference of two counters -/

/-- Two counters as words: their difference is small exactly if the counters are that close, up to
whole laps of the words. -/
theorem toNat_sub_le_iff {a b cap : Nat} (hab : a < b + 2 ^ 64) (hcap : cap < 2 ^ 64) :
    (UInt64.ofNat a - UInt64.ofNat b).toNat ≤ cap ↔
      ∃ lap, b ≤ a + lap * 2 ^ 64 ∧ a + lap * 2 ^ 64 ≤ b + cap := by
  rw [UInt64.toNat_sub, UInt64.toNat_ofNat', UInt64.toNat_ofNat']
  constructor
  · intro hle
    refine ⟨((2 ^ 64 - b % 2 ^ 64 + a % 2 ^ 64) % 2 ^ 64 + b - a) / 2 ^ 64, ?_, ?_⟩
    · omega
    · omega
  · rintro ⟨lap, hlow, hhigh⟩
    omega

/-- The pops that have returned between two states of a run. -/
def returnedBetween (s s' : SpscState T k) : Nat := s'.returned.length - s.returned.length

/-- The state at the second load. -/
theorem runSpsc_append (moved : T → T) (blank : T) (before between : List (Turn T)) :
    runSpsc k moved blank (before ++ between)
      = between.foldl (SpscState.step moved) (runSpsc k moved blank before) := List.foldl_append

/-- **The word that `size_approx` returns**, in the counts of the run. -/
theorem sizeApprox_word (hk1 : 1 ≤ k) (hk : k ≤ 63) (moved : T → T) (blank : T)
    (before between : List (Turn T)) :
    let s := runSpsc k moved blank before
    let s' := runSpsc k moved blank (before ++ between)
    sizeApprox s s' = UInt64.ofNat s.pushed.length
      - UInt64.ofNat (s'.returned.length + s.publishing) := by
  intro s s'
  obtain ⟨hhead, -⟩ := runSpsc_indices (k := k) moved blank before
  obtain ⟨-, htail⟩ := runSpsc_indices (k := k) moved blank (before ++ between)
  have hh := (runSpsc_inv hk1 hk moved blank before).head_add hhead
  have ht := ((runSpsc_inv hk1 hk moved blank (before ++ between)).tail_eq htail).1
  unfold sizeApprox
  rw [ht, UInt64.eq_sub_iff_add_eq, UInt64.ofNat_add, ← UInt64.add_assoc, UInt64.sub_add_cancel]
  exact hh

/-- **When `size_approx` stays within the ring.** Let `s` be the state at the load of `head_`.  The value
is at most `Capacity` exactly if the pops that return between the loads, and a push that is between its
two stores at the first one, are covered by what is outstanding there and by a pop that is between its
two stores; and if these are not one too many for the ring.  The laps are those of a run with `2^64` pops
between the loads. -/
theorem sizeApprox_le_capacity_iff (hk1 : 1 ≤ k) (hk : k ≤ 63) (moved : T → T) (blank : T)
    (before between : List (Turn T)) :
    let s := runSpsc k moved blank before
    let s' := runSpsc k moved blank (before ++ between)
    (sizeApprox s s').toNat ≤ 2 ^ k ↔
      ∃ lap, returnedBetween s s' + s.publishing ≤ s.outstanding + s.releasing + lap * 2 ^ 64 ∧
        s.outstanding + s.releasing + lap * 2 ^ 64
          ≤ 2 ^ k + returnedBetween s s' + s.publishing := by
  intro s s'
  have hinv : s.Inv := runSpsc_inv hk1 hk moved blank before
  have hcap : 2 ^ k ≤ 2 ^ 63 := Nat.pow_le_pow_right (by decide) hk
  have hcount := (hinv.tail_eq (runSpsc_indices moved blank before).2).2
  have hlater : s.returned.length ≤ s'.returned.length := by
    show _ ≤ (runSpsc k moved blank (before ++ between)).returned.length
    rw [runSpsc_append]
    exact SpscState.returned_foldl moved between _
  have hle := hinv.fifo.length_le
  have hbounded := hinv.bounded
  have hrel : s.releasing ≤ 1 := s.releasing_le
  have hword : sizeApprox s s' = UInt64.ofNat s.pushed.length
      - UInt64.ofNat (s'.returned.length + s.publishing) :=
    sizeApprox_word hk1 hk moved blank before between
  rw [hword, toNat_sub_le_iff (by omega) (by omega)]
  unfold returnedBetween SpscState.outstanding
  refine exists_congr fun lap => ?_
  constructor
  · rintro ⟨hlow, hhigh⟩
    exact ⟨by omega, by omega⟩
  · rintro ⟨hlow, hhigh⟩
    exact ⟨by omega, by omega⟩

/-- Two slots.  A push has stored the sequence of its slot, and the value has been popped before `head_`
is stored; the consumer, between two pops, then reads a size of `2^64 - 1`.  And two pushes fill the
ring, a pop releases its slot, a third push takes it: before `tail_` is stored the size is 3. -/
theorem sizeApprox_out_of_bounds :
    let popped := runSpsc 1 id 0 (List.replicate 4 (Turn.producer 7) ++ List.replicate 5 .consumer)
    let refilled := runSpsc 1 id 0
      (List.replicate 10 (Turn.producer 7) ++ List.replicate 4 .consumer
        ++ List.replicate 5 (Turn.producer 7))
    popped.consumer = .idle ∧ sizeApprox popped popped = 18446744073709551615 ∧
      ¬ (sizeApprox popped popped).toNat ≤ 2 ^ 1 ∧
      sizeApprox refilled refilled = 3 ∧ ¬ (sizeApprox refilled refilled).toNat ≤ 2 ^ 1 := by
  decide

/-- One push and no pop: the size is read as 1. -/
theorem sizeApprox_le_capacity_pushed :
    let s := runSpsc 1 id 0 (List.replicate 5 (Turn.producer 7))
    (sizeApprox s s).toNat ≤ 2 ^ 1 ∧ sizeApprox s s = 1 := by
  have hiff := sizeApprox_le_capacity_iff (by decide : 1 ≤ 1) (by decide) id 0
    (List.replicate 5 (Turn.producer 7)) []
  exact ⟨hiff.mpr ⟨0, by decide, by decide⟩, by decide⟩

end MarketDataPipeline.Queue
