/-
# MarketDataPipeline.Queue.Weak — the ring and its drain under the memory orders of the source.

`Queue.Spsc` lets the two threads share one memory.  Here every load and store has the order that the
source gives it: `head_` and `tail_` are relaxed in the calls and acquired in `empty`, a slot's sequence
is acquired and released, `stop_` is released by `request_stop` and acquired by `consumer_loop`, and the
storage of a slot is plain data.  A load may return an old store, so a push can find a full ring that is
not full any more and a pop an empty one that is not empty.

With `P` values pushed and `C` popped there is one ticket `C ≤ j < C + 2^k` for each slot, as in
`Queue.Spsc`.  What the memory keeps for them is `Shadows`: a sequence that lets a push or a pop through is
never an old one, and it carries every earlier access to the storage, so whoever it lets through has
them behind it.
-/
import MarketDataPipeline.Library.ReleaseAcquire
import MarketDataPipeline.Queue.Spsc

namespace MarketDataPipeline.Queue

open MarketDataPipeline.Library.ReleaseAcquire

variable {T Ts : Type} {k : Nat}

/-! ## The program -/

/-- `owner` is any thread that calls `request_stop` from outside. -/
inductive HandlerThread where
  | feed
  | consumer
  | owner
  deriving DecidableEq

instance : Fintype HandlerThread := ⟨{.feed, .consumer, .owner}, fun t => by cases t <;> decide⟩

/-- The atomic objects.  `stop_` is `0` or `1`. -/
inductive Atomic (k : Nat) where
  | head
  | tail
  | stop
  | sequence (i : Fin (2 ^ k))
  deriving DecidableEq

/-- Where the consumer is in `consumer_loop`. -/
inductive LoopPc where
  /-- `stop_` is to be loaded. -/
  | top
  /-- `stop_` was set: `empty` is to load `head_`. -/
  | stopping
  /-- `head_` has been loaded, `tail_` is to be. -/
  | comparing (head : UInt64)
  /-- In `try_pop`. -/
  | popping
  | exited
  deriving DecidableEq

abbrev QueueMemory (T Ts : Type) (k : Nat) := Memory HandlerThread (Atomic k) (Fin (2 ^ k)) Ts UInt64 T

/-- The memory, the two threads and their logs as in `SpscState`; `closed` when the feed thread has
called `request_stop` and left, `interrupted` when someone else has. -/
structure WeakState (T Ts : Type) (k : Nat) where
  mem : QueueMemory T Ts k
  producer : ProducerPc
  consumer : ConsumerPc
  loop : LoopPc
  item : T
  out : T
  offered : T
  pushed : List T
  popped : List T
  returned : List T
  closed : Bool
  interrupted : Bool

/-- Whose turn it is, which store a load returns and which time a store takes. -/
inductive WeakTurn (T Ts : Type) where
  | feed (next : T) (n : Nat) (ts : Ts)
  | finish (ts : Ts)
  | consumer (n : Nat) (ts : Ts)
  | owner (ts : Ts)

variable [LinearOrder Ts]

section Program

variable [OrderBot Ts]

namespace WeakState

/-- The constructors. -/
def init (T Ts : Type) (k : Nat) [LinearOrder Ts] [OrderBot Ts] (blank : T) : WeakState T Ts k where
  mem := .init (fun x => match x with
    | .head | .tail | .stop => 0
    | .sequence i => UInt64.ofNat i.val) (fun _ => blank)
  producer := .idle
  consumer := .idle
  loop := .top
  item := blank
  out := blank
  offered := blank
  pushed := []
  popped := []
  returned := []
  closed := false
  interrupted := false

/-- The next step of `try_push`.  A choice that the memory does not allow is a lost turn. -/
def stepPush (moved : T → T) (next : T) (n : Nat) (ts : Ts) (w : WeakState T Ts k) : WeakState T Ts k :=
  match w.producer with
  | .idle =>
    match w.mem.pick .feed .head n with
    | none => w
    | some m =>
      { w with
        mem := w.mem.load .feed .head .relaxed m
        item := next
        offered := next
        producer := .loaded m.val }
  | .loaded pos =>
    match w.mem.pick .feed (.sequence (slotOf k pos)) n with
    | none => w
    | some m =>
      { w with
        mem := w.mem.load .feed (.sequence (slotOf k pos)) .acquire m
        producer := if m.val - pos ≠ 0 then .idle else .claimed pos }
  | .claimed pos =>
    { w with
      mem := w.mem.access .feed (slotOf k pos) w.item
      item := moved w.item
      producer := .written pos }
  | .written pos =>
    if w.mem.Free .feed (.sequence (slotOf k pos)) ts then
      { w with
        mem := w.mem.store .feed (.sequence (slotOf k pos)) .release ts (pos + 1)
        producer := .published pos
        pushed := w.pushed ++ [w.offered] }
    else w
  | .published pos =>
    if w.mem.Free .feed .head ts then
      { w with mem := w.mem.store .feed .head .relaxed ts (pos + 1), producer := .idle }
    else w

/-- The next step of `try_pop`; when the pop returns, the loop starts again. -/
def stepPop (moved : T → T) (n : Nat) (ts : Ts) (w : WeakState T Ts k) : WeakState T Ts k :=
  match w.consumer with
  | .idle =>
    match w.mem.pick .consumer .tail n with
    | none => w
    | some m => { w with mem := w.mem.load .consumer .tail .relaxed m, consumer := .loaded m.val }
  | .loaded pos =>
    match w.mem.pick .consumer (.sequence (slotOf k pos)) n with
    | none => w
    | some m =>
      let mem := w.mem.load .consumer (.sequence (slotOf k pos)) .acquire m
      if m.val - (pos + 1) ≠ 0 then { w with mem, consumer := .idle, loop := .top }
      else { w with mem, consumer := .claimed pos }
  | .claimed pos =>
    let v := (w.mem.cells (slotOf k pos)).val
    { w with
      mem := w.mem.access .consumer (slotOf k pos) (moved v)
      out := v
      consumer := .taken pos }
  | .taken pos =>
    if w.mem.Free .consumer (.sequence (slotOf k pos)) ts then
      { w with
        mem := w.mem.store .consumer (.sequence (slotOf k pos)) .release ts (pos + UInt64.ofNat (2 ^ k))
        consumer := .released pos
        popped := w.popped ++ [w.out] }
    else w
  | .released pos =>
    if w.mem.Free .consumer .tail ts then
      { w with
        mem := w.mem.store .consumer .tail .relaxed ts (pos + 1)
        consumer := .idle
        loop := .top
        returned := w.returned ++ [w.out] }
    else w

/-- The next step of `consumer_loop`: `while (!stop_ || !queue_.empty())` around the pop. -/
def stepLoop (moved : T → T) (n : Nat) (ts : Ts) (w : WeakState T Ts k) : WeakState T Ts k :=
  match w.loop with
  | .top =>
    match w.mem.pick .consumer .stop n with
    | none => w
    | some m =>
      { w with
        mem := w.mem.load .consumer .stop .acquire m
        loop := if m.val ≠ 0 then .stopping else .popping }
  | .stopping =>
    match w.mem.pick .consumer .head n with
    | none => w
    | some m => { w with mem := w.mem.load .consumer .head .acquire m, loop := .comparing m.val }
  | .comparing head =>
    match w.mem.pick .consumer .tail n with
    | none => w
    | some m =>
      { w with
        mem := w.mem.load .consumer .tail .acquire m
        loop := if head = m.val then .exited else .popping }
  | .popping => w.stepPop moved n ts
  | .exited => w

/-- `request_stop` at the end of `run`: the feed thread is between two pushes. -/
def finish (ts : Ts) (w : WeakState T Ts k) : WeakState T Ts k :=
  if w.producer = .idle ∧ w.mem.Free .feed .stop ts then
    { w with mem := w.mem.store .feed .stop .release ts 1, closed := true }
  else w

/-- `request_stop` from outside, at any time. -/
def interrupt (ts : Ts) (w : WeakState T Ts k) : WeakState T Ts k :=
  if w.mem.Free .owner .stop ts then
    { w with mem := w.mem.store .owner .stop .release ts 1, interrupted := true }
  else w

def step (moved : T → T) (w : WeakState T Ts k) : WeakTurn T Ts → WeakState T Ts k
  | .feed next n ts => if w.closed then w else w.stepPush moved next n ts
  | .finish ts => if w.closed then w else w.finish ts
  | .consumer n ts => w.stepLoop moved n ts
  | .owner ts => w.interrupt ts

end WeakState

/-- The state after a list of turns. -/
def runWeak (k : Nat) (moved : T → T) (blank : T) (turns : List (WeakTurn T Ts)) : WeakState T Ts k :=
  turns.foldl (WeakState.step moved) (.init T Ts k blank)

end Program

/-! ## What the memory keeps -/

/-- Between the sequence load that lets a push through and its sequence store. -/
def ProducerPc.Inside : ProducerPc → Prop
  | .claimed _ | .written _ => True
  | .idle | .loaded _ | .published _ => False

def ConsumerPc.Inside : ConsumerPc → Prop
  | .claimed _ | .taken _ => True
  | .idle | .loaded _ | .released _ => False

abbrev Store (Ts : Type) (k : Nat) := Message HandlerThread (Atomic k) Ts UInt64

/-- With `P` values pushed and `C` popped, `cur` being the newest stores.  `pushing` and `popping` say
whether a thread is inside its call. -/
structure Shadows (mem : QueueMemory T Ts k) (cur : Atomic k → Store Ts k) (P C : Nat)
    (pushing popping : Prop) : Prop where
  current : ∀ x, x ≠ .stop → mem.Current cur x
  head : mem.Holds cur .feed .head
  tail : mem.Holds cur .consumer .tail
  /-- An old sequence does not let the push of ticket `j` through. -/
  feed : ∀ j, C ≤ j → j < C + 2 ^ k → ∀ m, mem.Readable .feed (.sequence (ticket k j)) m →
    m = cur (.sequence (ticket k j)) ∨ P ≤ j ∧ m.val ≠ UInt64.ofNat j
  /-- Nor the pop. -/
  consumer : ∀ j, C ≤ j → j < C + 2 ^ k → ∀ m, mem.Readable .consumer (.sequence (ticket k j)) m →
    m = cur (.sequence (ticket k j)) ∨ j < P ∧ m.val ≠ UInt64.ofNat (j + 1)
  /-- The sequence of a slot that no thread is in carries every access to its storage. -/
  between : ∀ j, C ≤ j → j < C + 2 ^ k → (j = P → ¬ pushing) → (j = C → ¬ popping) →
    (mem.cells (ticket k j)).Ordered (cur (.sequence (ticket k j))).view
  pushing : pushing → (mem.cells (ticket k P)).Ordered (mem.view .feed) ∧
    mem.Holds cur .feed (.sequence (ticket k P))
  popping : popping → (mem.cells (ticket k C)).Ordered (mem.view .consumer) ∧
    mem.Holds cur .consumer (.sequence (ticket k C))
  quiet : mem.raced = false

namespace Shadows

theorem lt_lap (C : Nat) : C < C + 2 ^ k := Nat.lt_add_of_pos_right (Nat.two_pow_pos k)

variable {mem mem' : QueueMemory T Ts k} {cur : Atomic k → Store Ts k} {P C : Nat}
  {pushing popping : Prop}

/-- Nothing is lost when the threads get to know more. -/
theorem mono (h : Shadows mem cur P C pushing popping)
    (hhistory : ∀ x, x ≠ .stop → mem'.history x = mem.history x) (hcells : mem'.cells = mem.cells)
    (hview : ∀ u, mem.view u ≤ mem'.view u) (hraced : mem'.raced = mem.raced) :
    Shadows mem' cur P C pushing popping where
  current := fun x hx => by
    unfold Memory.Current
    rw [hhistory x hx]
    exact h.current x hx
  head := h.head.mono (hview _)
  tail := h.tail.mono (hview _)
  feed := fun j hj hj' m hm => h.feed j hj hj' m (hm.of_le (hhistory _ (by simp)) (hview _))
  consumer := fun j hj hj' m hm => h.consumer j hj hj' m (hm.of_le (hhistory _ (by simp)) (hview _))
  between := fun j hj hj' hp hc => hcells ▸ h.between j hj hj' hp hc
  pushing := fun hin =>
    ⟨hcells ▸ (h.pushing hin).1.mono (hview _), (h.pushing hin).2.mono (hview _)⟩
  popping := fun hin =>
    ⟨hcells ▸ (h.popping hin).1.mono (hview _), (h.popping hin).2.mono (hview _)⟩
  quiet := hraced.trans h.quiet

theorem load (h : Shadows mem cur P C pushing popping) (t : HandlerThread) (x : Atomic k)
    (order : LoadOrder) (m : Store Ts k) : Shadows (mem.load t x order m) cur P C pushing popping :=
  h.mono (fun _ _ => rfl) rfl (fun _ => Memory.view_le_load) rfl

theorem stop [OrderBot Ts] (h : Shadows mem cur P C pushing popping) (t : HandlerThread)
    (order : StoreOrder) (ts : Ts) (val : UInt64) :
    Shadows (mem.store t .stop order ts val) cur P C pushing popping :=
  h.mono (fun _ hx => Memory.store_history_ne hx) rfl (fun _ => Memory.view_le_store) rfl

/-- The stores of a thread that knows the newest one are made in the order of their times. -/
theorem current_store [OrderBot Ts] {ts : Ts} (h : Shadows mem cur P C pushing popping)
    {t : HandlerThread} {x : Atomic k} (hholds : mem.Holds cur t x) (hfree : mem.Free t x ts)
    (order : StoreOrder) (val : UInt64) (y : Atomic k) (hy : y ≠ .stop) :
    (mem.store t x order ts val).Current (Function.update cur x (mem.message t x order ts val)) y := by
  by_cases heq : y = x
  · subst heq
    exact (h.current y hy).store hholds hfree
  · exact (h.current y hy).store_ne heq

/-! ### The producer -/

/-- The push of ticket `P` acquires the sequence of its slot. -/
theorem claimPush (h : Shadows mem cur P C False popping) (hle : C ≤ P) (hroom : P < C + 2 ^ k)
    (hne : popping → C < P) :
    Shadows (mem.load .feed (.sequence (ticket k P)) .acquire (cur (.sequence (ticket k P)))) cur P C
      True popping :=
  have hload := h.load .feed (.sequence (ticket k P)) .acquire (cur (.sequence (ticket k P)))
  { hload with
    between := fun j hj hj' _ hc => hload.between j hj hj' (fun _ => id) hc
    pushing := fun _ => by
      refine ⟨?_, Memory.le_load_seen⟩
      have hordered := h.between P hle hroom (fun _ => id) (fun heq hin => (hne hin).ne' heq)
      exact hordered.mono Memory.le_load_acquire }

/-- It moves its item into the storage. -/
theorem accessPush (h : Shadows mem cur P C True popping) (hle : C ≤ P) (hroom : P < C + 2 ^ k)
    (hne : popping → C < P) (d : T) :
    Shadows (mem.access .feed (ticket k P) d) cur P C True popping where
  current := h.current
  head := h.head.mono Memory.view_le_access
  tail := h.tail.mono Memory.view_le_access
  feed := fun j hj hj' m hm => h.feed j hj hj' m (hm.of_le rfl Memory.view_le_access)
  consumer := fun j hj hj' m hm => h.consumer j hj hj' m (hm.of_le rfl Memory.view_le_access)
  between := fun j hj hj' hp hc => by
    have hother : ticket k j ≠ ticket k P :=
      SpscState.ticket_ne hj hj' hle hroom (fun heq => hp heq trivial)
    rw [Memory.access_cells_ne hother]
    exact h.between j hj hj' hp hc
  pushing := fun hin =>
    ⟨Memory.ordered_access (h.pushing hin).1, (h.pushing hin).2.mono Memory.view_le_access⟩
  popping := fun hin => by
    have hother : ticket k C ≠ ticket k P :=
      SpscState.ticket_ne le_rfl (lt_lap C) hle hroom (hne hin).ne
    rw [Memory.access_cells_ne hother]
    exact ⟨(h.popping hin).1.mono Memory.view_le_access, (h.popping hin).2.mono Memory.view_le_access⟩
  quiet := (Memory.access_raced (h.pushing trivial).1).trans h.quiet

/-- A store to the sequence of one slot leaves the other slots alone. -/
theorem sequence_ne {i j : Nat} (h : ticket k i ≠ ticket k j) :
    Atomic.sequence (ticket k i) ≠ .sequence (ticket k j) := fun heq =>
  h (Atomic.sequence.inj heq)

/-- It releases the sequence: ticket `P` has its value. -/
theorem publish [OrderBot Ts] {ts : Ts} (h : Shadows mem cur P C True popping) (hle : C ≤ P)
    (hroom : P < C + 2 ^ k) (hne : popping → C < P) (hfree : mem.Free .feed (.sequence (ticket k P)) ts)
    (hcur : (cur (.sequence (ticket k P))).val = UInt64.ofNat P) (val : UInt64) :
    Shadows (mem.store .feed (.sequence (ticket k P)) .release ts val)
      (Function.update cur (.sequence (ticket k P))
        (mem.message .feed (.sequence (ticket k P)) .release ts val))
      (P + 1) C False popping where
  current := h.current_store (h.pushing trivial).2 hfree .release val
  head := h.head.store_ne (by simp)
  tail := h.tail.store_ne (by simp)
  feed := fun j hj hj' m hm => by
    by_cases heq : j = P
    · subst heq
      refine Or.inl (Memory.Current.eq_of_holds ?_ Memory.holds_store hm)
      exact h.current_store (h.pushing trivial).2 hfree .release val _ (by simp)
    · have hother := sequence_ne (SpscState.ticket_ne hj hj' hle hroom heq)
      rw [Function.update_of_ne hother]
      refine (h.feed j hj hj' m (Memory.readable_of_store_ne hother hm)).imp_right fun hold => ?_
      exact ⟨by have := hold.1; omega, hold.2⟩
  consumer := fun j hj hj' m hm => by
    by_cases heq : j = P
    · subst heq
      rw [Function.update_self]
      refine (Memory.readable_of_store hm).imp_right fun hold => ⟨Nat.lt_succ_self j, ?_⟩
      -- before the store the pop could only see the free slot
      have hm' := (h.consumer j hj hj' m hold).resolve_right fun hlt => absurd hlt.1 (lt_irrefl j)
      rw [hm', hcur]
      exact (ofNat_add_ne (by decide) (by decide)).symm
    · have hother := sequence_ne (SpscState.ticket_ne hj hj' hle hroom heq)
      rw [Function.update_of_ne hother]
      refine (h.consumer j hj hj' m (Memory.readable_of_store_ne hother hm)).imp_right fun hold => ?_
      exact ⟨Nat.lt_succ_of_lt hold.1, hold.2⟩
  between := fun j hj hj' _ hc => by
    by_cases heq : j = P
    · subst heq
      rw [Function.update_self]
      exact (h.pushing trivial).1.mono Memory.view_le_message
    · have hother := sequence_ne (SpscState.ticket_ne hj hj' hle hroom heq)
      rw [Function.update_of_ne hother]
      exact h.between j hj hj' (fun hP => absurd hP heq) hc
  pushing := False.elim
  popping := fun hin => by
    have hother : ticket k C ≠ ticket k P :=
      SpscState.ticket_ne le_rfl (lt_lap C) hle hroom (hne hin).ne
    exact ⟨(h.popping hin).1.mono Memory.view_le_store, (h.popping hin).2.store_ne (sequence_ne hother)⟩
  quiet := h.quiet

/-! ### The consumer -/

/-- After the release of ticket `C` only ticket `C + 2^k` is in its slot. -/
theorem ticket_ne_released {j : Nat} (hj : C + 1 ≤ j) (hj' : j < C + 1 + 2 ^ k) (hne : j ≠ C + 2 ^ k) :
    ticket k j ≠ ticket k C :=
  SpscState.ticket_ne (Nat.le_of_succ_le hj) (by omega) le_rfl (lt_lap C) (by omega)

/-- The pop of ticket `C` acquires the sequence of its slot. -/
theorem claimPop (h : Shadows mem cur P C pushing False) (hsome : C < P) :
    Shadows (mem.load .consumer (.sequence (ticket k C)) .acquire (cur (.sequence (ticket k C)))) cur P C
      pushing True :=
  have hload := h.load .consumer (.sequence (ticket k C)) .acquire (cur (.sequence (ticket k C)))
  { hload with
    between := fun j hj hj' hp _ => hload.between j hj hj' hp (fun _ => id)
    popping := fun _ => by
      refine ⟨?_, Memory.le_load_seen⟩
      have hordered := h.between C le_rfl (lt_lap C)
        (fun heq => absurd heq hsome.ne) (fun _ => id)
      exact hordered.mono Memory.le_load_acquire }

/-- It moves the value out of the storage. -/
theorem accessPop (h : Shadows mem cur P C pushing True) (hsome : C < P)
    (hroom : pushing → P < C + 2 ^ k) (d : T) :
    Shadows (mem.access .consumer (ticket k C) d) cur P C pushing True where
  current := h.current
  head := h.head.mono Memory.view_le_access
  tail := h.tail.mono Memory.view_le_access
  feed := fun j hj hj' m hm => h.feed j hj hj' m (hm.of_le rfl Memory.view_le_access)
  consumer := fun j hj hj' m hm => h.consumer j hj hj' m (hm.of_le rfl Memory.view_le_access)
  between := fun j hj hj' hp hc => by
    have hother : ticket k j ≠ ticket k C :=
      SpscState.ticket_ne hj hj' le_rfl (lt_lap C) (fun heq => hc heq trivial)
    rw [Memory.access_cells_ne hother]
    exact h.between j hj hj' hp hc
  pushing := fun hin => by
    have hother : ticket k P ≠ ticket k C :=
      SpscState.ticket_ne hsome.le (hroom hin) le_rfl (lt_lap C) hsome.ne'
    rw [Memory.access_cells_ne hother]
    exact ⟨(h.pushing hin).1.mono Memory.view_le_access, (h.pushing hin).2.mono Memory.view_le_access⟩
  popping := fun hin =>
    ⟨Memory.ordered_access (h.popping hin).1, (h.popping hin).2.mono Memory.view_le_access⟩
  quiet := (Memory.access_raced (h.popping trivial).1).trans h.quiet

/-- It releases the sequence: the slot is the one of ticket `C + 2^k` now. -/
theorem release [OrderBot Ts] {ts : Ts} (h : Shadows mem cur P C pushing True) (hk1 : 1 ≤ k)
    (hk : k ≤ 63) (hsome : C < P) (hbounded : P ≤ C + 2 ^ k) (hroom : pushing → P < C + 2 ^ k)
    (hfree : mem.Free .consumer (.sequence (ticket k C)) ts)
    (hcur : (cur (.sequence (ticket k C))).val = UInt64.ofNat (C + 1)) (val : UInt64) :
    Shadows (mem.store .consumer (.sequence (ticket k C)) .release ts val)
      (Function.update cur (.sequence (ticket k C))
        (mem.message .consumer (.sequence (ticket k C)) .release ts val))
      P (C + 1) pushing False where
  current := h.current_store (h.popping trivial).2 hfree .release val
  head := h.head.store_ne (by simp)
  tail := h.tail.store_ne (by simp)
  feed := fun j hj hj' m hm => by
    by_cases heq : j = C + 2 ^ k
    · subst heq
      rw [ticket_lap] at hm ⊢
      rw [Function.update_self]
      refine (Memory.readable_of_store hm).imp_right fun hold => ⟨hbounded, ?_⟩
      -- before the store the push could only see the full slot
      have hm' := (h.feed C le_rfl (lt_lap C) m hold).resolve_right fun hlt => by
        exact absurd hlt.1 (not_le_of_gt hsome)
      have hcap : 2 ^ k ≤ 2 ^ 63 := Nat.pow_le_pow_right (by decide) hk
      have htwo : 2 ^ 1 ≤ 2 ^ k := Nat.pow_le_pow_right (by decide) hk1
      have hsplit : C + 2 ^ k = C + 1 + (2 ^ k - 1) := by omega
      rw [hm', hcur, hsplit]
      exact (ofNat_add_ne (by omega) (by omega)).symm
    · have hother := sequence_ne (ticket_ne_released hj hj' heq)
      rw [Function.update_of_ne hother]
      exact h.feed j (by omega) (by omega) m (Memory.readable_of_store_ne hother hm)
  consumer := fun j hj hj' m hm => by
    by_cases heq : j = C + 2 ^ k
    · subst heq
      rw [ticket_lap] at hm ⊢
      refine Or.inl (Memory.Current.eq_of_holds ?_ Memory.holds_store hm)
      exact h.current_store (h.popping trivial).2 hfree .release val _ (by simp)
    · have hother := sequence_ne (ticket_ne_released hj hj' heq)
      rw [Function.update_of_ne hother]
      exact h.consumer j (by omega) (by omega) m (Memory.readable_of_store_ne hother hm)
  between := fun j hj hj' hp _ => by
    by_cases heq : j = C + 2 ^ k
    · subst heq
      rw [ticket_lap, Function.update_self]
      exact (h.popping trivial).1.mono Memory.view_le_message
    · have hother := sequence_ne (ticket_ne_released hj hj' heq)
      rw [Function.update_of_ne hother]
      exact h.between j (by omega) (by omega) hp (fun hC => by omega)
  pushing := fun hin => by
    have hother : ticket k P ≠ ticket k C :=
      SpscState.ticket_ne hsome.le (hroom hin) le_rfl (lt_lap C) hsome.ne'
    exact ⟨(h.pushing hin).1.mono Memory.view_le_store, (h.pushing hin).2.store_ne (sequence_ne hother)⟩
  popping := False.elim
  quiet := h.quiet

/-! ### The indices -/

/-- Each index has one thread that stores it. -/
def Owns (t : HandlerThread) (x : Atomic k) : Prop :=
  t = .feed ∧ x = .head ∨ t = .consumer ∧ x = .tail

theorem index [OrderBot Ts] {ts : Ts} (h : Shadows mem cur P C pushing popping) {t : HandlerThread}
    {x : Atomic k} (howns : Owns t x) (hfree : mem.Free t x ts) (order : StoreOrder) (val : UInt64) :
    Shadows (mem.store t x order ts val) (Function.update cur x (mem.message t x order ts val)) P C
      pushing popping := by
  have hseq : ∀ i, Atomic.sequence i ≠ x := by
    rcases howns with ⟨-, rfl⟩ | ⟨-, rfl⟩ <;> simp
  have hholds : mem.Holds cur t x := by
    rcases howns with ⟨rfl, rfl⟩ | ⟨rfl, rfl⟩
    · exact h.head
    · exact h.tail
  refine ⟨fun y hy => ?_, ?head, ?tail, fun j hj hj' m hm => ?_, fun j hj hj' m hm => ?_,
    fun j hj hj' hp hc => ?_, fun hin => ?_, fun hin => ?_, h.quiet⟩
  case head =>
    rcases howns with ⟨rfl, rfl⟩ | ⟨rfl, rfl⟩
    · exact Memory.holds_store
    · exact h.head.store_ne (by simp)
  case tail =>
    rcases howns with ⟨rfl, rfl⟩ | ⟨rfl, rfl⟩
    · exact h.tail.store_ne (by simp)
    · exact Memory.holds_store
  · exact h.current_store hholds hfree order val y hy
  · rw [Function.update_of_ne (hseq _)]
    exact h.feed j hj hj' m (Memory.readable_of_store_ne (hseq _) hm)
  · rw [Function.update_of_ne (hseq _)]
    exact h.consumer j hj hj' m (Memory.readable_of_store_ne (hseq _) hm)
  · rw [Function.update_of_ne (hseq _)]
    exact h.between j hj hj' hp hc
  · exact ⟨(h.pushing hin).1.mono Memory.view_le_store, (h.pushing hin).2.store_ne (hseq _)⟩
  · exact ⟨(h.popping hin).1.mono Memory.view_le_store, (h.popping hin).2.store_ne (hseq _)⟩

end Shadows

end MarketDataPipeline.Queue
