/-
# MarketDataPipeline.Queue.Linear — the ring as an atomic queue.

Above the steps of `Queue.Spsc` there is the queue that the two threads are meant to see: a list of at
most `Capacity` values on which a push and a pop happen at one moment (`boundedQueue`).  Every
interleaving of the steps has a history that this queue explains (`spsc_linearizable`).

A push takes effect with its sequence store and a pop with its own; a call that fails takes effect with
the sequence load that tells it so.  `head_` and `tail_` are stored later and do not matter, which is why
they may be out of step with the queue.
-/
import MarketDataPipeline.Library.Linearizability
import MarketDataPipeline.Queue.Spsc

namespace MarketDataPipeline.Queue

open MarketDataPipeline.Library.Linearizability

variable {T : Type} {k : Nat}

/-! ## The queue that is meant -/

inductive QueueThread where
  | producer
  | consumer
  deriving DecidableEq

inductive QueueOp (T : Type) where
  | push (item : T)
  | pop
  deriving DecidableEq

inductive QueueRet (T : Type) where
  | pushed (ok : Bool)
  | popped (out : Option T)
  deriving DecidableEq

/-- At most `capacity` values, first in first out; a push into a full queue and a pop from an empty one
fail. -/
def boundedQueue (T : Type) (capacity : Nat) : SeqObject (List T) (QueueOp T) (QueueRet T) where
  init := []
  apply q
    | .push v => if q.length < capacity then (q ++ [v], .pushed true) else (q, .pushed false)
    | .pop =>
      match q with
      | [] => ([], .popped none)
      | v :: rest => (rest, .popped (some v))

section

variable {capacity : Nat} {q : List T} {v : T}

theorem apply_push (h : q.length < capacity) :
    (boundedQueue T capacity).apply q (.push v) = (q ++ [v], .pushed true) :=
  if_pos h

theorem apply_push_full (h : ¬ q.length < capacity) :
    (boundedQueue T capacity).apply q (.push v) = (q, .pushed false) :=
  if_neg h

end

/-! ## What the threads see -/

namespace SpscState

/-- The calls and returns of a step. -/
def events (s : SpscState T k) : Turn T → List (Event QueueThread (QueueOp T) (QueueRet T))
  | .producer next =>
    match s.producer with
    | .idle => [.call .producer (.push next)]
    | .loaded pos =>
      if (s.slots (slotOf k pos)).sequence - pos ≠ 0 then [.ret .producer (.pushed false)] else []
    | .claimed _ | .written _ => []
    | .published _ => [.ret .producer (.pushed true)]
  | .consumer =>
    match s.consumer with
    | .idle => [.call .consumer .pop]
    | .loaded pos =>
      if (s.slots (slotOf k pos)).sequence - (pos + 1) ≠ 0 then [.ret .consumer (.popped none)] else []
    | .claimed _ | .taken _ => []
    | .released _ => [.ret .consumer (.popped (some s.out))]

/-- The same with the moments of effect. -/
def labels (s : SpscState T k) : Turn T → List (Label QueueThread (QueueOp T) (QueueRet T))
  | .producer next =>
    match s.producer with
    | .idle => [.call .producer (.push next)]
    | .loaded pos =>
      if (s.slots (slotOf k pos)).sequence - pos ≠ 0 then
        [.commit ⟨.producer, .push s.offered, .pushed false⟩, .ret .producer (.pushed false)]
      else []
    | .claimed _ => []
    | .written _ => [.commit ⟨.producer, .push s.offered, .pushed true⟩]
    | .published _ => [.ret .producer (.pushed true)]
  | .consumer =>
    match s.consumer with
    | .idle => [.call .consumer .pop]
    | .loaded pos =>
      if (s.slots (slotOf k pos)).sequence - (pos + 1) ≠ 0 then
        [.commit ⟨.consumer, .pop, .popped none⟩, .ret .consumer (.popped none)]
      else []
    | .claimed _ => []
    | .taken _ => [.commit ⟨.consumer, .pop, .popped (some s.out)⟩]
    | .released _ => [.ret .consumer (.popped (some s.out))]

theorem historyOf_labels (s : SpscState T k) (turn : Turn T) : historyOf (s.labels turn) = s.events turn := by
  cases turn with
  | producer next =>
    unfold labels events
    cases s.producer with
    | loaded pos =>
      dsimp only
      split <;> rfl
    | idle | claimed pos | written pos | published pos => rfl
  | consumer =>
    unfold labels events
    cases s.consumer with
    | loaded pos =>
      dsimp only
      split <;> rfl
    | idle | claimed pos | taken pos | released pos => rfl

/-! ## The relation between the ring and the queue -/

def producerStatus (s : SpscState T k) : Status (QueueOp T) (QueueRet T) :=
  match s.producer with
  | .idle => .idle
  | .loaded _ | .claimed _ | .written _ => .pending (.push s.offered)
  | .published _ => .served (.pushed true)

def consumerStatus (s : SpscState T k) : Status (QueueOp T) (QueueRet T) :=
  match s.consumer with
  | .idle => .idle
  | .loaded _ | .claimed _ | .taken _ => .pending .pop
  | .released _ => .served (.popped (some s.out))

/-- The values that are outstanding are the contents of the queue. -/
structure Reflects (s : SpscState T k) (c : Config (List T) QueueThread (QueueOp T) (QueueRet T)) :
    Prop where
  inv : s.Inv
  state : c.state = s.pushed.drop s.popped.length
  producer : c.status .producer = s.producerStatus
  consumer : c.status .consumer = s.consumerStatus

theorem reflects_init (T : Type) (k : Nat) (blank : T) :
    Reflects (SpscState.init T k blank) (boundedQueue T (2 ^ k)).start where
  inv := .init T k blank
  state := rfl
  producer := rfl
  consumer := rfl

section Steps

variable {s : SpscState T k} {c : Config (List T) QueueThread (QueueOp T) (QueueRet T)}

/-- The queue holds as many values as are outstanding. -/
theorem Reflects.length (h : s.Reflects c) : c.state.length = s.outstanding := by
  rw [h.state, List.length_drop]
  rfl

/-- A step of the producer, when the queue and its status are right afterwards. -/
theorem Reflects.afterProducer (h : s.Reflects c) (hk1 : 1 ≤ k) (hk : k ≤ 63) (moved : T → T) (next : T)
    {q : List T} {st : Status (QueueOp T) (QueueRet T)}
    (hstate : q = (s.stepProducer moved next).pushed.drop s.popped.length)
    (hst : st = (s.stepProducer moved next).producerStatus) :
    (s.stepProducer moved next).Reflects ⟨q, Function.update c.status .producer st⟩ := by
  obtain ⟨hconsumer, -, hout, hpopped, -⟩ := s.stepProducer_frame moved next
  refine ⟨h.inv.stepProducer hk1 hk moved next, ?_, ?_, ?_⟩
  · rw [hpopped]
    exact hstate
  · show Function.update c.status .producer st .producer = _
    rw [Function.update_self, hst]
  · show Function.update c.status .producer st .consumer = _
    rw [Function.update_of_ne (by decide), h.consumer]
    unfold consumerStatus
    rw [hconsumer, hout]

theorem Reflects.afterConsumer (h : s.Reflects c) (hk : k ≤ 63) (moved : T → T)
    {q : List T} {st : Status (QueueOp T) (QueueRet T)}
    (hstate : q = s.pushed.drop (s.stepConsumer moved).popped.length)
    (hst : st = (s.stepConsumer moved).consumerStatus) :
    (s.stepConsumer moved).Reflects ⟨q, Function.update c.status .consumer st⟩ := by
  obtain ⟨hproducer, -, hoffered, hpushed⟩ := s.stepConsumer_frame moved
  refine ⟨h.inv.stepConsumer hk moved, ?_, ?_, ?_⟩
  · rw [hpushed]
    exact hstate
  · show Function.update c.status .consumer st .producer = _
    rw [Function.update_of_ne (by decide), h.producer]
    unfold producerStatus
    rw [hproducer, hoffered]
  · show Function.update c.status .consumer st .consumer = _
    rw [Function.update_self, hst]

/-- A step that shows nothing. -/
theorem Reflects.silent (h : s.Reflects c) {s' : SpscState T k} (hinv : s'.Inv)
    (hpushed : s'.pushed = s.pushed) (hpopped : s'.popped = s.popped)
    (hproducer : s'.producerStatus = s.producerStatus)
    (hconsumer : s'.consumerStatus = s.consumerStatus) : s'.Reflects c := by
  refine ⟨hinv, ?_, ?_, ?_⟩
  · rw [hpushed, hpopped]
    exact h.state
  · rw [hproducer]
    exact h.producer
  · rw [hconsumer]
    exact h.consumer

theorem Reflects.stepProducer (h : s.Reflects c) (hk1 : 1 ≤ k) (hk : k ≤ 63) (moved : T → T) (next : T) :
    ∃ c', Accepts (boundedQueue T (2 ^ k)) c (s.labels (.producer next)) c' ∧
      (s.stepProducer moved next).Reflects c' := by
  have hstatus := h.producer
  have hinv := h.inv.stepProducer hk1 hk moved next
  unfold producerStatus at hstatus
  cases hpc : s.producer with
  | idle =>
    rw [hpc] at hstatus
    refine ⟨⟨c.state, Function.update c.status .producer (.pending (.push next))⟩, ?_,
      h.afterProducer hk1 hk moved next ?_ ?_⟩
    · simp only [labels, hpc]
      exact Accepts.nil.snoc (.call hstatus)
    · simp only [SpscState.stepProducer, hpc]
      exact h.state
    · simp only [SpscState.stepProducer, hpc, producerStatus]
  | loaded pos =>
    rw [hpc] at hstatus
    by_cases hfree : (s.slots (slotOf k pos)).sequence - pos ≠ 0
    · -- the call fails: it takes effect here, on a full queue, and returns
      have hfull : s.outstanding = 2 ^ k := by
        rw [← h.inv.push_fails_iff hk1 hk moved next hpc]
        simp only [SpscState.stepProducer, hpc, if_pos hfree]
      have hlen : ¬ c.state.length < 2 ^ k := by
        rw [h.length, hfull]
        exact lt_irrefl _
      refine ⟨⟨c.state, Function.update c.status .producer .idle⟩, ?_,
        h.afterProducer hk1 hk moved next ?_ ?_⟩
      · simp only [labels, hpc, if_pos hfree]
        exact Accepts.commit_ret hstatus (apply_push_full hlen)
      · simp only [SpscState.stepProducer, hpc, if_pos hfree]
        exact h.state
      · simp only [SpscState.stepProducer, hpc, if_pos hfree, producerStatus]
    · refine ⟨c, ?_, h.silent hinv ?_ ?_ ?_ ?_⟩
      · simp only [labels, hpc, if_neg hfree]
        exact .nil
      all_goals simp only [SpscState.stepProducer, hpc, if_neg hfree, producerStatus, consumerStatus]
  | claimed pos =>
    refine ⟨c, ?_, h.silent hinv ?_ ?_ ?_ ?_⟩
    · simp only [labels, hpc]
      exact .nil
    all_goals simp only [SpscState.stepProducer, hpc, producerStatus, consumerStatus, setStorage]
  | written pos =>
    rw [hpc] at hstatus
    have hok := h.inv.producer
    simp only [ProducerOk, hpc] at hok
    have hle := h.inv.fifo.length_le
    have hlen : c.state.length < 2 ^ k := by
      rw [h.length]
      unfold outstanding
      omega
    refine ⟨⟨c.state ++ [s.offered], Function.update c.status .producer (.served (.pushed true))⟩, ?_,
      h.afterProducer hk1 hk moved next ?_ ?_⟩
    · simp only [labels, hpc]
      exact Accepts.commit hstatus (apply_push hlen)
    · simp only [SpscState.stepProducer, hpc]
      rw [List.drop_append_of_le_length hle, h.state]
    · simp only [SpscState.stepProducer, hpc, producerStatus]
  | published pos =>
    rw [hpc] at hstatus
    refine ⟨⟨c.state, Function.update c.status .producer .idle⟩, ?_,
      h.afterProducer hk1 hk moved next ?_ ?_⟩
    · simp only [labels, hpc]
      exact Accepts.nil.snoc (.ret hstatus)
    · simp only [SpscState.stepProducer, hpc]
      exact h.state
    · simp only [SpscState.stepProducer, hpc, producerStatus]

theorem Reflects.stepConsumer (h : s.Reflects c) (hk : k ≤ 63) (moved : T → T) :
    ∃ c', Accepts (boundedQueue T (2 ^ k)) c (s.labels .consumer) c' ∧
      (s.stepConsumer moved).Reflects c' := by
  have hstatus := h.consumer
  have hinv := h.inv.stepConsumer hk moved
  unfold consumerStatus at hstatus
  cases hpc : s.consumer with
  | idle =>
    rw [hpc] at hstatus
    refine ⟨⟨c.state, Function.update c.status .consumer (.pending .pop)⟩, ?_,
      h.afterConsumer hk moved ?_ ?_⟩
    · simp only [labels, hpc]
      exact Accepts.nil.snoc (.call hstatus)
    · simp only [SpscState.stepConsumer, hpc]
      exact h.state
    · simp only [SpscState.stepConsumer, hpc, consumerStatus]
  | loaded pos =>
    rw [hpc] at hstatus
    by_cases hsome : (s.slots (slotOf k pos)).sequence - (pos + 1) ≠ 0
    · have hnone : s.outstanding = 0 := by
        rw [← h.inv.pop_fails_iff hk moved hpc]
        simp only [SpscState.stepConsumer, hpc, if_pos hsome]
      have hempty : c.state = [] := by
        apply List.eq_nil_of_length_eq_zero
        rw [h.length, hnone]
      refine ⟨⟨[], Function.update c.status .consumer .idle⟩, ?_, h.afterConsumer hk moved ?_ ?_⟩
      · simp only [labels, hpc, if_pos hsome]
        apply Accepts.commit_ret hstatus
        rw [hempty]
        rfl
      · simp only [SpscState.stepConsumer, hpc, if_pos hsome]
        rw [← hempty]
        exact h.state
      · simp only [SpscState.stepConsumer, hpc, if_pos hsome, consumerStatus]
    · refine ⟨c, ?_, h.silent hinv ?_ ?_ ?_ ?_⟩
      · simp only [labels, hpc, if_neg hsome]
        exact .nil
      all_goals simp only [SpscState.stepConsumer, hpc, if_neg hsome, producerStatus, consumerStatus]
  | claimed pos =>
    refine ⟨c, ?_, h.silent hinv ?_ ?_ ?_ ?_⟩
    · simp only [labels, hpc]
      exact .nil
    all_goals simp only [SpscState.stepConsumer, hpc, producerStatus, consumerStatus, setStorage]
  | taken pos =>
    rw [hpc] at hstatus
    have hok := h.inv.consumer
    simp only [ConsumerOk, hpc] at hok
    -- the value in hand is the oldest one in the queue
    have hcons : c.state = s.out :: s.pushed.drop (s.popped.length + 1) := by
      obtain ⟨hlt, hget⟩ := List.getElem?_eq_some_iff.mp hok.2.2
      rw [h.state, List.drop_eq_getElem_cons hlt, hget]
    refine ⟨⟨s.pushed.drop (s.popped.length + 1),
      Function.update c.status .consumer (.served (.popped (some s.out)))⟩, ?_,
      h.afterConsumer hk moved ?_ ?_⟩
    · simp only [labels, hpc]
      apply Accepts.commit hstatus
      rw [hcons]
      rfl
    · simp only [SpscState.stepConsumer, hpc, List.length_append, List.length_singleton]
    · simp only [SpscState.stepConsumer, hpc, consumerStatus, setSequence]
  | released pos =>
    rw [hpc] at hstatus
    refine ⟨⟨c.state, Function.update c.status .consumer .idle⟩, ?_, h.afterConsumer hk moved ?_ ?_⟩
    · simp only [labels, hpc]
      exact Accepts.nil.snoc (.ret hstatus)
    · simp only [SpscState.stepConsumer, hpc]
      exact h.state
    · simp only [SpscState.stepConsumer, hpc, consumerStatus]

end Steps

end SpscState

/-! ## Runs -/

/-- The calls and returns of a run, in order. -/
def spscHistory (k : Nat) (moved : T → T) (blank : T) (turns : List (Turn T)) :
    List (Event QueueThread (QueueOp T) (QueueRet T)) :=
  emitted (SpscState.step moved) SpscState.events (SpscState.init T k blank) turns

/-- **The ring is linearizable.** Whatever the two threads call and however their loads and stores
interleave, with the indices wrapping any number of times, the calls and returns are those of an atomic
queue of `Capacity` values: the calls can be lined up in one order that respects the time at which they
were made, such that every push returned true exactly if there was room for it and every pop returned the
oldest value, or false exactly if there was none. -/
theorem spsc_linearizable (hk1 : 1 ≤ k) (hk : k ≤ 63) (moved : T → T) (blank : T)
    (turns : List (Turn T)) :
    (boundedQueue T (2 ^ k)).Linearizable (spscHistory k moved blank turns) := by
  have hstep : ∀ (s : SpscState T k) (c : Config (List T) QueueThread (QueueOp T) (QueueRet T))
      (turn : Turn T), s.Reflects c →
      ∃ c', Accepts (boundedQueue T (2 ^ k)) c (s.labels turn) c' ∧ (s.step moved turn).Reflects c' := by
    intro s c turn h
    cases turn with
    | producer next => exact h.stepProducer hk1 hk moved next
    | consumer => exact h.stepConsumer hk moved
  obtain ⟨c, hacc, -⟩ := foldl_accepted hstep (SpscState.reflects_init T k blank) turns
  have hlin := linearizable_of_accepted hacc
  rw [historyOf_emitted] at hlin
  simp only [SpscState.historyOf_labels] at hlin
  exact hlin

/-- Two slots: two pushes, a third that finds them taken while a pop is under way, and a fourth. -/
def busyTurns : List (Turn Nat) :=
  List.replicate 5 (.producer 7) ++ List.replicate 5 (.producer 8) ++
    [.consumer, .consumer, .consumer, .producer 9, .producer 9, .consumer, .consumer] ++
    List.replicate 5 (.producer 9)

theorem spsc_linearizable_busy :
    returned .producer (spscHistory 1 id 0 busyTurns)
        = [.pushed true, .pushed true, .pushed false, .pushed true] ∧
      (boundedQueue Nat (2 ^ 1)).Linearizable (spscHistory 1 id 0 busyTurns) := by
  refine ⟨by decide +kernel, ?_⟩
  exact spsc_linearizable (by decide) (by decide) id 0 busyTurns

end MarketDataPipeline.Queue
