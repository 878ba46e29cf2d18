/-
# MarketDataPipeline.Feed.Shutdown — `run` returns.

The threads of `Feed.Threads` in an infinite run, in which both threads get turns again and again.  Once
the stop flag is set, or once the deadline has passed, the feed thread publishes what it has in hand and
leaves its loop: `publish` gives up after 65 tries, so it never waits for the consumer (`feedWork`).
Behind `request_stop` nothing enters the ring any more, the consumer takes out what is left and exits
(`loopWork`), and `join` returns.

The consumer may go round its loop without popping anything: `tail_` can be ahead of `head_` while a
push is between its two stores, and then the ring is not empty for the test and empty for the pop.
That is why its work is counted only from the moment at which the feed thread is behind `request_stop`.
-/
import Mathlib.Data.Prod.Lex
import MarketDataPipeline.Feed.Tape
import MarketDataPipeline.Library.Fairness

namespace MarketDataPipeline.Feed

open MarketDataPipeline.Library.Fairness
open MarketDataPipeline.Queue

variable {α : Type} {handle : FeedHandler → α → FeedHandler}

/-! ## Schedules -/

def PipelineTurn.isFeed : PipelineTurn α → Bool
  | .feed _ _ => true
  | .consumer | .requestStop => false

def PipelineTurn.isConsumer : PipelineTurn α → Bool
  | .consumer => true
  | .feed _ _ | .requestStop => false

/-- If it is a turn of the feed thread, the deadline has passed. -/
def PipelineTurn.pastDeadline : PipelineTurn α → Bool
  | .feed expired _ => expired
  | .consumer | .requestStop => true

/-- Both threads are scheduled again and again. -/
structure Fair (schedule : Nat → PipelineTurn α) : Prop where
  feed : Recurs fun n => (schedule n).isFeed = true
  consumer : Recurs fun n => (schedule n).isConsumer = true

/-- The state after the first `n` turns. -/
def runUntil (handle : FeedHandler → α → FeedHandler) (schedule : Nat → PipelineTurn α) (n : Nat) :
    PipelineState :=
  runPipeline handle ((List.range n).map schedule)

theorem runUntil_succ (schedule : Nat → PipelineTurn α) (n : Nat) :
    runUntil handle schedule (n + 1) = (runUntil handle schedule n).step handle (schedule n) := by
  unfold runUntil
  rw [List.range_succ, List.map_append, List.map_singleton, runPipeline_snoc]

theorem runUntil_linked (schedule : Nat → PipelineTurn α) (n : Nat) :
    (runUntil handle schedule n).Linked :=
  runPipeline_linked _

namespace PipelineState

variable {s : PipelineState}

/-! ## The feed thread -/

/-- The steps that a call of `try_push` has left, at most. -/
def pushSteps : ProducerPc → Nat
  | .idle => 5
  | .loaded _ => 4
  | .claimed _ => 3
  | .written _ => 2
  | .published _ => 1

/-- The steps to `request_stop`, at most, within a phase.  A datagram that is still to be received comes
first in the order: nothing bounds the number of its events. -/
def feedWork (s : PipelineState) : Nat ×ₗ Nat :=
  match s.feed with
  | .receive => toLex (2, 0)
  | .publishing failed _ later =>
    toLex (1, 400 * later.length + 6 * (64 - failed) + pushSteps s.ring.producer)
  | .check => toLex (0, 2)
  | .leaving => toLex (0, 1)
  | .joining | .done => toLex (0, 0)

theorem feedWork_lt {a b c d : Nat} (h : a < c ∨ a = c ∧ b < d) :
    toLex (a, b) < toLex (c, d) :=
  Prod.Lex.toLex_lt_toLex.mpr h

/-- Going on with the next event, with no push in progress. -/
theorem feedWork_next {s' : PipelineState} {later : List PipelineEvent} (hfeed : s'.feed = .next later)
    (hidle : s'.ring.producer = .idle) {work : Nat} (hwork : 400 * later.length < work) :
    s'.feedWork < toLex (1, work) := by
  unfold feedWork
  rw [hfeed]
  cases later with
  | nil => exact feedWork_lt (Or.inl Nat.zero_lt_one)
  | cons ev later =>
    rw [hidle]
    rw [List.length_cons] at hwork
    refine feedWork_lt (Or.inr ⟨rfl, ?_⟩)
    simp only [pushSteps]
    omega

/-- With a datagram in hand, however many events it has. -/
theorem feedWork_lt_receive {s' : PipelineState} {evs : List PipelineEvent}
    (hfeed : s'.feed = .next evs) : s'.feedWork < toLex (2, 0) := by
  unfold feedWork
  rw [hfeed]
  cases evs with
  | nil => exact feedWork_lt (Or.inl Nat.two_pos)
  | cons ev later => exact feedWork_lt (Or.inl Nat.one_lt_two)

/-- A step of a push that does not return. -/
theorem pushSteps_lt {ring : SpscState PipelineEvent 14} {ev : PipelineEvent}
    (hcall : ring.pushReturns id ev = none) :
    pushSteps (ring.stepProducer id ev).producer < pushSteps ring.producer := by
  cases hpc : ring.producer with
  | idle | claimed pos | written pos => simp [SpscState.stepProducer, hpc, pushSteps]
  | loaded pos =>
    simp only [SpscState.pushReturns, SpscState.stepProducer, hpc] at hcall ⊢
    split
    case isTrue hfull =>
      rw [if_pos hfull] at hcall
      cases hcall
    case isFalse => exact Nat.lt_succ_self 3
  | published pos =>
    rw [SpscState.pushReturns_true.mpr ⟨pos, hpc⟩] at hcall
    cases hcall

theorem one_le_pushSteps (pc : ProducerPc) : 1 ≤ pushSteps pc := by
  cases pc <;> simp [pushSteps]

/-- Every step of a publish brings it nearer to its end, whatever the ring looks like. -/
theorem Linked.feedWork_push (h : s.Linked) {failed : Nat} {ev : PipelineEvent}
    {later : List PipelineEvent} (hfeed : s.feed = .publishing failed ev later) (expired : Bool)
    (arrival : Option α) : (s.step handle (.feed expired arrival)).feedWork < s.feedWork := by
  have hwork : s.feedWork
      = toLex (1, 400 * later.length + 6 * (64 - failed) + pushSteps s.ring.producer) := by
    unfold feedWork
    rw [hfeed]
  have hone := one_le_pushSteps s.ring.producer
  have hnext : (s.step handle (.feed expired arrival)).FeedOk := h.feed.stepPush hfeed expired arrival
  rw [hwork]
  cases hcall : s.ring.pushReturns id ev with
  | none =>
    have hlt := pushSteps_lt hcall
    rw [step_push_none hfeed hcall]
    simp only [feedWork, hfeed]
    exact feedWork_lt (Or.inr ⟨rfl, by omega⟩)
  | some pushed =>
    cases pushed with
    | true =>
      rw [step_push_true hfeed hcall] at hnext ⊢
      refine feedWork_next rfl ?_ (by omega)
      have heffect := s.ring.push_effect id ev h.feed.accepted (by
        have hpc := h.feed.pc
        rw [hfeed] at hpc
        exact hpc.2)
      rw [hcall] at heffect
      exact heffect.1
    | false =>
      have hidle := SpscState.idle_of_pushReturns_false hcall
      rw [step_push_false hfeed hcall]
      split
      case isTrue hlt =>
        -- a failed try has loaded the head, so it had four steps left and the new one has five
        have hfour : pushSteps s.ring.producer = 4 := by
          obtain ⟨⟨pos, hpos⟩, -⟩ := (h.ring.pushReturns_false (by decide) (by decide)).mp hcall
          rw [hpos]
          rfl
        simp only [feedWork, hidle]
        refine feedWork_lt (Or.inr ⟨rfl, ?_⟩)
        rw [hfour]
        simp only [pushSteps]
        omega
      case isFalse => exact feedWork_next rfl hidle (by omega)

/-- A turn of the feed thread that is to stop. -/
theorem Linked.feedWork_step (h : s.Linked) {expired : Bool} {arrival : Option α}
    (hstop : s.stop = true ∨ expired = true) (hbehind : ¬ s.Behind) :
    (s.step handle (.feed expired arrival)).feedWork < s.feedWork := by
  cases hfeed : s.feed with
  | publishing failed ev later => exact h.feedWork_push hfeed expired arrival
  | check =>
    have hleave : (s.stop || expired) = true := Bool.or_eq_true_iff.mpr hstop
    simp only [PipelineState.step, stepFeed, hfeed, hleave, if_true, feedWork]
    exact feedWork_lt (Or.inr ⟨rfl, by decide⟩)
  | receive =>
    have hlast : s.feedWork = toLex (2, 0) := by
      unfold feedWork
      rw [hfeed]
    rw [hlast]
    simp only [PipelineState.step, stepFeed, hfeed]
    cases arrival with
    | none => exact feedWork_lt (Or.inl (by decide))
    | some a => exact feedWork_lt_receive rfl
  | leaving =>
    simp only [PipelineState.step, stepFeed, hfeed, feedWork]
    exact feedWork_lt (Or.inr ⟨rfl, by decide⟩)
  | joining => exact absurd (Or.inl hfeed) hbehind
  | done => exact absurd (Or.inr hfeed) hbehind

/-- The other turns leave the feed thread's work as it is. -/
theorem feedWork_other {turn : PipelineTurn α} (hturn : turn.isFeed = false) :
    (s.step handle turn).feedWork = s.feedWork := by
  cases turn with
  | feed expired arrival => cases hturn
  | requestStop => rfl
  | consumer =>
    have hf := stepLoop_frame s
    show s.stepLoop.feedWork = s.feedWork
    unfold feedWork
    rw [hf.feed, hf.producer]

theorem not_behind_next {s' : PipelineState} {evs : List PipelineEvent} (hfeed : s'.feed = .next evs) :
    ¬ s'.Behind := by
  unfold Behind
  rw [hfeed]
  cases evs <;> simp [FeedPc.next]

/-- `join` is reached by way of `request_stop` only. -/
theorem stepFeed_behind {expired : Bool} {arrival : Option α}
    (hbehind : (s.stepFeed handle expired arrival).Behind) : s.Behind ∨ s.feed = .leaving := by
  cases hfeed : s.feed with
  | leaving => exact Or.inr rfl
  | joining => exact Or.inl (Or.inl hfeed)
  | done => exact Or.inl (Or.inr hfeed)
  | check =>
    simp only [stepFeed, hfeed, Behind] at hbehind
    split at hbehind <;> simp at hbehind
  | receive =>
    simp only [stepFeed, hfeed] at hbehind
    cases arrival with
    | none => simp [Behind] at hbehind
    | some a => exact absurd hbehind (not_behind_next rfl)
  | publishing failed ev later =>
    change (s.step handle (.feed expired arrival)).Behind at hbehind
    cases hcall : s.ring.pushReturns id ev with
    | none =>
      rw [step_push_none hfeed hcall] at hbehind
      exact Or.inl hbehind
    | some pushed =>
      cases pushed with
      | true =>
        rw [step_push_true hfeed hcall] at hbehind
        exact absurd hbehind (not_behind_next rfl)
      | false =>
        rw [step_push_false hfeed hcall] at hbehind
        split at hbehind
        · simp [Behind] at hbehind
        · exact absurd hbehind (not_behind_next rfl)

/-- Behind `request_stop` the flag is set. -/
theorem stop_of_behind_step (h : s.Behind → s.stop = true) (turn : PipelineTurn α)
    (hbehind : (s.step handle turn).Behind) : (s.step handle turn).stop = true := by
  cases turn with
  | requestStop => rfl
  | consumer =>
    have hf := stepLoop_frame s
    unfold Behind at h hbehind
    rw [show (s.step handle .consumer).feed = s.feed from hf.feed] at hbehind
    exact hf.stop.trans (h hbehind)
  | feed expired arrival =>
    rcases stepFeed_behind hbehind with hbefore | hleaving
    · exact (stepFeed_frame handle expired arrival s).stop (h hbefore)
    · simp only [step, stepFeed, hleaving]

/-- Behind `request_stop` the feed thread stays there and leaves the ring alone. -/
theorem step_behind (hbehind : s.Behind) (turn : PipelineTurn α) : (s.step handle turn).Behind := by
  cases turn with
  | requestStop => exact hbehind
  | consumer =>
    unfold Behind at hbehind ⊢
    rw [show (s.step handle .consumer).feed = s.feed from (stepLoop_frame s).feed]
    exact hbehind
  | feed expired arrival => exact behind_stepFeed hbehind

theorem stepFeed_of_behind (hbehind : s.Behind) (expired : Bool) (arrival : Option α) :
    s.stepFeed handle expired arrival = { s with feed := (s.stepFeed handle expired arrival).feed } := by
  unfold stepFeed
  rcases hbehind with hfeed | hfeed
  · rw [hfeed]
    dsimp only
    split <;> rfl
  · rw [hfeed]

/-! ## The consumer thread -/

/-- The events that are in the ring or in the hands of the consumer's call. -/
def remaining (s : PipelineState) : Nat := s.accepted.length - s.ring.returned.length

/-- The steps that a call of `try_pop` has left, at most. -/
def popSteps : ConsumerPc → Nat
  | .idle => 5
  | .loaded _ => 4
  | .claimed _ => 3
  | .taken _ => 2
  | .released _ => 1

/-- The steps to the end of `consumer_loop`, at most, when nothing enters the ring any more.  A pop that
finds nothing is followed by the test that ends the loop. -/
def loopWork (s : PipelineState) : Nat :=
  match s.loop with
  | .test => 10 * s.remaining + 3
  | .empty => 10 * s.remaining + 2
  | .popping =>
    if s.remaining = 0 then 4 + popSteps s.ring.consumer
    else 10 * s.remaining - 4 + popSteps s.ring.consumer
  | .handing => 10 * s.remaining + 4
  | .flushing => 1
  | .exited => 0

/-- The feed thread is behind `request_stop`. -/
structure Closing (s : PipelineState) : Prop where
  linked : s.Linked
  behind : s.Behind
  stop : s.stop = true

theorem Closing.producer (h : s.Closing) : s.ring.producer = .idle :=
  h.linked.feed.idle_of_pending (pending_of_behind h.behind)

theorem Closing.step (h : s.Closing) (turn : PipelineTurn α) : (s.step handle turn).Closing :=
  ⟨h.linked.step turn, step_behind h.behind turn,
    stop_of_behind_step (fun _ => h.stop) turn (step_behind h.behind turn)⟩

/-- A step of a pop that does not return. -/
theorem popSteps_lt {ring : SpscState PipelineEvent 14} (hcall : ring.popReturns id = none) :
    popSteps (ring.stepConsumer id).consumer < popSteps ring.consumer := by
  cases hpc : ring.consumer with
  | idle | claimed pos | taken pos => simp [SpscState.stepConsumer, hpc, popSteps]
  | loaded pos =>
    simp only [SpscState.popReturns, SpscState.stepConsumer, hpc] at hcall ⊢
    split
    case isTrue hnone =>
      rw [if_pos hnone] at hcall
      cases hcall
    case isFalse => exact Nat.lt_succ_self 3
  | released pos => simp [SpscState.popReturns, hpc] at hcall

theorem one_le_popSteps (pc : ConsumerPc) : 1 ≤ popSteps pc := by
  cases pc <;> simp [popSteps]

/-- With no push in progress, nothing remains exactly when all that was accepted has been popped. -/
theorem Closing.remaining_eq_zero (h : s.Closing) : s.remaining = 0 ↔ s.accepted = s.ring.returned := by
  have hpre := h.linked.ring.returned_of_pushed
  rw [h.linked.pushed_eq h.producer] at hpre
  unfold remaining
  constructor
  · intro hzero
    exact (hpre.eq_of_length_le (by omega)).symm
  · intro heq
    rw [heq, Nat.sub_self]

theorem Closing.empty_iff (h : s.Closing) (hidle : s.ring.consumer = .idle) :
    s.ring.head = s.ring.tail ↔ s.remaining = 0 := by
  rw [h.remaining_eq_zero]
  exact h.linked.ring.empty_iff h.linked.feed.head (by decide) hidle h.linked.feed.accepted

/-- A pop that fails has found everything popped. -/
theorem Closing.remaining_of_popFails (h : s.Closing) (hcall : s.ring.popReturns id = some false) :
    s.remaining = 0 ∧ popSteps s.ring.consumer = 4 := by
  cases hpc : s.ring.consumer with
  | loaded pos =>
    refine ⟨?_, rfl⟩
    have hok := h.linked.ring.consumer
    simp only [SpscState.ConsumerOk, hpc] at hok
    have hfail : (s.ring.stepConsumer id).consumer = .idle := by
      have heffect := s.ring.pop_effect id
      rw [hcall] at heffect
      exact heffect.1
    have hnone := (h.linked.ring.pop_fails_iff (by decide) id hpc).mp hfail
    unfold SpscState.outstanding at hnone
    unfold remaining
    rw [← h.linked.pushed_eq h.producer, hok.2.2]
    exact hnone
  | idle | claimed pos | taken pos | released pos =>
    simp [SpscState.popReturns, hpc] at hcall

/-- A pop that succeeds leaves one event less. -/
theorem Closing.remaining_of_popReturns (h : s.Closing) (hcall : s.ring.popReturns id = some true) :
    s.accepted.length - (s.ring.stepConsumer id).returned.length + 1 = s.remaining := by
  have heffect := s.ring.pop_effect id
  rw [hcall] at heffect
  have hnext := (h.linked.ring.stepConsumer (by decide) id).returned_of_pushed
  have hpushed : (s.ring.stepConsumer id).pushed = s.accepted := by
    rw [(s.ring.stepConsumer_frame id).2.2.2]
    exact h.linked.pushed_eq h.producer
  rw [hpushed, heffect.2] at hnext
  have hle := hnext.length_le
  rw [List.length_append, List.length_singleton] at hle
  unfold remaining
  rw [heffect.2, List.length_append, List.length_singleton]
  omega

/-- Every step inside a pop brings the consumer nearer to its exit. -/
theorem Closing.loopWork_pop (h : s.Closing) (hloop : s.loop = .popping) :
    s.stepLoop.loopWork < s.loopWork := by
  have hwork : s.loopWork = if s.remaining = 0 then 4 + popSteps s.ring.consumer
      else 10 * s.remaining - 4 + popSteps s.ring.consumer := by
    unfold loopWork
    rw [hloop]
  have hone := one_le_popSteps s.ring.consumer
  cases hcall : s.ring.popReturns id with
  | none =>
    have hlt := popSteps_lt hcall
    have hsame : s.stepLoop.remaining = s.remaining := by
      have heffect := s.ring.pop_effect id
      rw [hcall] at heffect
      rw [stepLoop_pop_none hloop hcall]
      unfold remaining
      rw [show (s.ring.stepConsumer id).returned = s.ring.returned from heffect]
    have hnext : s.stepLoop.loopWork
        = if s.remaining = 0 then 4 + popSteps (s.ring.stepConsumer id).consumer
          else 10 * s.remaining - 4 + popSteps (s.ring.stepConsumer id).consumer := by
      rw [← hsame, stepLoop_pop_none hloop hcall]
      simp only [loopWork, hloop]
    rw [hwork, hnext]
    split <;> omega
  | some popped =>
    cases popped with
    | true =>
      have hless := h.remaining_of_popReturns hcall
      have hnext : s.stepLoop.loopWork
          = 10 * (s.accepted.length - (s.ring.stepConsumer id).returned.length) + 4 := by
        rw [stepLoop_pop_true hloop hcall]
        rfl
      rw [hwork, hnext, if_neg (by omega)]
      omega
    | false =>
      obtain ⟨hzero, hfour⟩ := h.remaining_of_popFails hcall
      have heffect := s.ring.pop_effect id
      rw [hcall] at heffect
      have hnext : s.stepLoop.loopWork
          = 10 * (s.accepted.length - (s.ring.stepConsumer id).returned.length) + 3 := by
        rw [stepLoop_pop_false hloop hcall]
        rfl
      have hlen : s.accepted.length - s.ring.returned.length = 0 := hzero
      rw [hwork, hnext, heffect.2, hlen, if_pos hzero, hfour]
      decide

/-- A turn of the consumer thread. -/
theorem Closing.loopWork_step (h : s.Closing) (hexit : s.loop ≠ .exited) :
    s.stepLoop.loopWork < s.loopWork := by
  cases hloop : s.loop with
  | popping => exact h.loopWork_pop hloop
  | exited => exact absurd hloop hexit
  | test =>
    simp only [stepLoop, hloop, h.stop, if_true, loopWork]
    exact Nat.lt_succ_self _
  | handing =>
    simp only [stepLoop, hloop, loopWork]
    exact Nat.lt_succ_self _
  | flushing =>
    simp only [stepLoop, hloop, loopWork]
    exact Nat.one_pos
  | empty =>
    have hidle : s.ring.consumer = .idle := h.linked.loop.pc (by rw [hloop]; decide)
    have htest := h.empty_iff hidle
    simp only [stepLoop, hloop]
    split
    case isTrue =>
      simp only [loopWork, hloop]
      omega
    case isFalse hsome =>
      have hne := mt htest.mpr hsome
      have hnext : loopWork { s with loop := .popping } = 10 * s.remaining - 4 + 5 := by
        simp only [loopWork, remaining, hidle, popSteps]
        exact if_neg hne
      rw [hnext]
      simp only [loopWork, hloop]
      omega

/-- The other turns leave the consumer's work as it is. -/
theorem Closing.loopWork_other (h : s.Closing) {turn : PipelineTurn α} (hturn : turn.isConsumer = false) :
    (s.step handle turn).loopWork = s.loopWork := by
  cases turn with
  | consumer => cases hturn
  | requestStop => rfl
  | feed expired arrival =>
    show (s.stepFeed handle expired arrival).loopWork = s.loopWork
    rw [stepFeed_of_behind h.behind]
    rfl

/-- A consumer that has exited stays so. -/
theorem exited_step (hexit : s.loop = .exited) (turn : PipelineTurn α) :
    (s.step handle turn).loop = .exited := by
  cases turn with
  | requestStop => exact hexit
  | consumer => simp only [step, stepLoop, hexit]
  | feed expired arrival => exact (stepFeed_frame handle expired arrival s).loop.trans hexit

theorem stop_step (hstop : s.stop = true) (turn : PipelineTurn α) :
    (s.step handle turn).stop = true := by
  cases turn with
  | requestStop => rfl
  | consumer => exact (stepLoop_frame s).stop.trans hstop
  | feed expired arrival => exact (stepFeed_frame handle expired arrival s).stop hstop

/-- The feed thread returns from `join` once the consumer has exited, and then it is done. -/
theorem done_step (hbehind : s.Behind) (hexit : s.loop = .exited) {turn : PipelineTurn α}
    (hturn : turn.isFeed = true ∨ s.feed = .done) : (s.step handle turn).feed = .done := by
  cases turn with
  | requestStop => exact hturn.resolve_left (by simp [PipelineTurn.isFeed])
  | consumer =>
    exact (stepLoop_frame s).feed.trans (hturn.resolve_left (by simp [PipelineTurn.isFeed]))
  | feed expired arrival =>
    rcases hbehind with hfeed | hfeed
    · simp only [step, stepFeed, hfeed, hexit, if_true]
    · simp only [step, stepFeed, hfeed]

/-- Without a stop from outside, the flag is set by the feed thread itself. -/
theorem behind_of_stop_step (h : s.stop = true → s.Behind) {turn : PipelineTurn α}
    (hturn : turn ≠ .requestStop) (hstop : (s.step handle turn).stop = true) :
    (s.step handle turn).Behind := by
  cases turn with
  | requestStop => exact absurd rfl hturn
  | consumer => exact step_behind (h ((stepLoop_frame s).stop ▸ hstop)) _
  | feed expired arrival =>
    rcases stepFeed_stop hstop with hbefore | hbehind
    · exact step_behind (h hbefore) _
    · exact hbehind

end PipelineState

/-! ## Runs -/

section Runs

variable {schedule : Nat → PipelineTurn α}

theorem runUntil_stop_of_behind (n : Nat) :
    (runUntil handle schedule n).Behind → (runUntil handle schedule n).stop = true := by
  induction n with
  | zero =>
    intro hbehind
    rcases hbehind with hfeed | hfeed <;> cases hfeed
  | succ n ih =>
    rw [runUntil_succ]
    exact PipelineState.stop_of_behind_step ih (schedule n)

/-- The feed thread gets behind `request_stop`. -/
theorem exists_behind (hfair : Fair schedule) {n : Nat}
    (hstop : ∀ m, n ≤ m →
      (runUntil handle schedule m).stop = true ∨ (schedule m).pastDeadline = true) :
    ∃ m, n ≤ m ∧ (runUntil handle schedule m).Behind := by
  have hfeed : ∀ m, n ≤ m → (schedule m).isFeed = true → ¬ (runUntil handle schedule m).Behind →
      (runUntil handle schedule (m + 1)).feedWork < (runUntil handle schedule m).feedWork := by
    intro m hm hturn hbehind
    have hgo := hstop m hm
    rw [runUntil_succ]
    cases hs : schedule m with
    | feed expired arrival =>
      rw [hs] at hgo
      exact (runUntil_linked schedule m).feedWork_step hgo hbehind
    | consumer | requestStop =>
      rw [hs] at hturn
      cases hturn
  refine reaches (fun m => (runUntil handle schedule m).feedWork) hfair.feed ?_ ?_
  · intro m hm hbehind
    refine Or.inr ?_
    cases hturn : (schedule m).isFeed with
    | true => exact (hfeed m hm hturn hbehind).le
    | false =>
      rw [runUntil_succ, PipelineState.feedWork_other hturn]
  · exact fun m hm hturn hbehind => Or.inr (hfeed m hm hturn hbehind)

/-- Then the consumer exits. -/
theorem exists_exited (hfair : Fair schedule) {n : Nat}
    (hbehind : (runUntil handle schedule n).Behind) :
    ∃ m, n ≤ m ∧ (runUntil handle schedule m).loop = .exited := by
  have hclosing : ∀ m, n ≤ m → (runUntil handle schedule m).Closing := by
    refine persists ⟨runUntil_linked schedule n, hbehind, runUntil_stop_of_behind n hbehind⟩ ?_
    intro m _ h
    rw [runUntil_succ]
    exact h.step (schedule m)
  have hloop : ∀ m, n ≤ m → (schedule m).isConsumer = true →
      (runUntil handle schedule m).loop ≠ .exited →
      (runUntil handle schedule (m + 1)).loopWork < (runUntil handle schedule m).loopWork := by
    intro m hm hturn hexit
    rw [runUntil_succ]
    cases hs : schedule m with
    | consumer => exact (hclosing m hm).loopWork_step hexit
    | feed expired arrival | requestStop =>
      rw [hs] at hturn
      cases hturn
  refine reaches (fun m => (runUntil handle schedule m).loopWork) hfair.consumer ?_ ?_
  · intro m hm hexit
    refine Or.inr ?_
    cases hturn : (schedule m).isConsumer with
    | true => exact (hloop m hm hturn hexit).le
    | false =>
      rw [runUntil_succ, (hclosing m hm).loopWork_other hturn]
  · exact fun m hm hturn hexit => Or.inr (hloop m hm hturn hexit)

/-- Without a stop from outside nothing is published once the flag is set, and so everything accepted has
been handed on when the consumer leaves. -/
theorem runUntil_drained (hown : ∀ i, schedule i ≠ .requestStop) (n : Nat) :
    (runUntil handle schedule n).Drained := by
  have hbehind : ∀ n, (runUntil handle schedule n).stop = true → (runUntil handle schedule n).Behind := by
    intro n
    induction n with
    | zero => intro hstop; cases hstop
    | succ n ih =>
      rw [runUntil_succ]
      exact PipelineState.behind_of_stop_step ih (hown n)
  induction n with
  | zero => intro hleft; cases hleft
  | succ n ih =>
    have hlinked : (runUntil handle schedule n).Linked := runUntil_linked schedule n
    rw [runUntil_succ]
    refine hlinked.drained_step ih ?_ handle
    intro hlate
    cases hs : schedule n with
    | consumer | requestStop =>
      rw [hs] at hlate
      exact hlate
    | feed expired arrival =>
      rw [hs] at hlate
      obtain ⟨hleft, hret⟩ := hlate
      have hb := hbehind n (hlinked.loop.stopped (Or.inr hleft))
      exact hlinked.feed.not_returning (PipelineState.pending_of_behind hb) hret

end Runs

/-- **`run` returns.** In every infinite run in which both threads are scheduled again and again, whatever
arrives and however the turns interleave: if some thread calls `request_stop`, or if the deadline passes,
the feed thread comes back from `run` with the consumer thread finished.  If the flag is set by the
deadline alone, every accepted event has then been handed to its consumers, in order. -/
theorem run_returns (handle : FeedHandler → α → FeedHandler) (schedule : Nat → PipelineTurn α)
    (hfair : Fair schedule)
    (hstop : (∃ n, schedule n = .requestStop) ∨
      ∃ n, ∀ m, n ≤ m → (schedule m).pastDeadline = true) :
    ∃ n, ∀ m, n ≤ m →
      (runUntil handle schedule m).feed = .done ∧ (runUntil handle schedule m).loop = .exited ∧
      ((∀ i, schedule i ≠ .requestStop) →
        (runUntil handle schedule m).sinks = .after (runUntil handle schedule m).accepted) := by
  have hbehind : ∃ n, (runUntil handle schedule n).Behind := by
    rcases hstop with ⟨n, hn⟩ | ⟨n, hpast⟩
    · have hset : (runUntil handle schedule (n + 1)).stop = true := by
        rw [runUntil_succ, hn]
        rfl
      have hkeep : ∀ m, n + 1 ≤ m → (runUntil handle schedule m).stop = true := by
        refine persists hset ?_
        intro m _ h
        rw [runUntil_succ]
        exact PipelineState.stop_step h _
      obtain ⟨m, -, hm⟩ := exists_behind hfair fun m hm => Or.inl (hkeep m hm)
      exact ⟨m, hm⟩
    · obtain ⟨m, -, hm⟩ := exists_behind hfair fun m hm => Or.inr (hpast m hm)
      exact ⟨m, hm⟩
  obtain ⟨n₁, hb₁⟩ := hbehind
  obtain ⟨n₂, hn₂, he₂⟩ := exists_exited hfair hb₁
  -- both threads stay where they are
  have hb : ∀ m, n₁ ≤ m → (runUntil handle schedule m).Behind := by
    refine persists hb₁ ?_
    intro m _ h
    rw [runUntil_succ]
    exact PipelineState.step_behind h _
  have he : ∀ m, n₂ ≤ m → (runUntil handle schedule m).loop = .exited := by
    refine persists he₂ ?_
    intro m _ h
    rw [runUntil_succ]
    exact PipelineState.exited_step h _
  obtain ⟨n₃, hn₃, hturn⟩ := hfair.feed n₂
  have hd : ∀ m, n₃ + 1 ≤ m → (runUntil handle schedule m).feed = .done := by
    refine persists ?_ ?_
    · rw [runUntil_succ]
      exact PipelineState.done_step (hb _ (hn₂.trans hn₃)) (he _ hn₃) (Or.inl hturn)
    · intro m hm h
      rw [runUntil_succ]
      exact PipelineState.done_step (hb _ (by omega)) (he _ (by omega)) (Or.inr h)
  refine ⟨n₃ + 1, fun m hm => ⟨hd m hm, he m (by omega), ?_⟩⟩
  intro hown
  refine runUntil_drained hown m ?_
  rw [he m (by omega)]
  rfl

/-- The threads take turns, and the deadline is over from the start. -/
def alternating (n : Nat) : PipelineTurn (List UInt8 × Recovery) :=
  if n % 2 = 0 then .feed true none else .consumer

theorem run_returns_alternating :
    ∃ n, (runUntil (fun h d => h.processDatagram d.1 d.2) alternating n).feed = .done := by
  have hfair : Fair alternating := by
    refine ⟨fun n => ⟨2 * n, by omega, ?_⟩, fun n => ⟨2 * n + 1, by omega, ?_⟩⟩
    · simp [alternating, PipelineTurn.isFeed]
    · simp [alternating, PipelineTurn.isConsumer]
  have hpast : ∀ m, 0 ≤ m → (alternating m).pastDeadline = true := by
    intro m _
    unfold alternating
    split <;> rfl
  obtain ⟨n, hn⟩ := run_returns (fun h (d : List UInt8 × Recovery) => h.processDatagram d.1 d.2)
    alternating hfair (Or.inr ⟨0, hpast⟩)
  exact ⟨n, (hn n le_rfl).1⟩

end MarketDataPipeline.Feed
