/-
# MarketDataPipeline.Queue.Orders — what the memory orders of the ring give.

The invariant of the machine of `Queue.Weak` and its two results.  The newest stores form a ring that
keeps the invariant of `Queue.Spsc` (`WeakState.ring`), whatever old stores the threads still load; so
the ring is a queue without races, and the drain at the end loses nothing (`weak_handoff`).
-/
import MarketDataPipeline.Queue.Weak

namespace MarketDataPipeline.Queue

open MarketDataPipeline.Library.ReleaseAcquire

variable {T Ts : Type} {k : Nat} [LinearOrder Ts]

/-! ## The invariant -/

namespace WeakState

/-- The ring as it is when every load returns the newest store. -/
def ring (w : WeakState T Ts k) (cur : Atomic k → Store Ts k) : SpscState T k where
  head := (cur .head).val
  tail := (cur .tail).val
  slots := fun i => ⟨(w.mem.cells i).val, (cur (.sequence i)).val⟩
  producer := w.producer
  consumer := w.consumer
  item := w.item
  out := w.out
  offered := w.offered
  pushed := w.pushed
  popped := w.popped
  returned := w.returned

omit [LinearOrder Ts] in
/-- The slots after a plain access. -/
theorem slots_access (cur : Atomic k → Store Ts k) (mem : QueueMemory T Ts k) (t : HandlerThread)
    (a : Fin (2 ^ k)) (d : T) :
    (fun i => (⟨((mem.access t a d).cells i).val, (cur (.sequence i)).val⟩ : Slot T)) =
      Function.update (fun i => ⟨(mem.cells i).val, (cur (.sequence i)).val⟩) a
        ⟨d, (cur (.sequence a)).val⟩ := by
  funext i
  by_cases hi : i = a
  · subst hi
    rw [Function.update_self, Memory.access_val]
  · rw [Function.update_of_ne hi, Memory.access_cells_ne hi]

omit [LinearOrder Ts] in
/-- The slots after a store to a sequence. -/
theorem slots_store (cur : Atomic k → Store Ts k) (cells : Fin (2 ^ k) → Cell HandlerThread T)
    (a : Fin (2 ^ k)) (m : Store Ts k) :
    (fun i => (⟨(cells i).val, (Function.update cur (.sequence a) m (.sequence i)).val⟩ : Slot T)) =
      Function.update (fun i => ⟨(cells i).val, (cur (.sequence i)).val⟩) a ⟨(cells a).val, m.val⟩ := by
  funext i
  by_cases hi : i = a
  · subst hi
    rw [Function.update_self, Function.update_self]
  · rw [Function.update_of_ne hi, Function.update_of_ne (fun heq => hi (Atomic.sequence.inj heq))]

/-- What the loop has found out about the end of the feed, if it was the feed thread that stopped it. -/
def LoopOk (w : WeakState T Ts k) (cur : Atomic k → Store Ts k) : Prop :=
  match w.loop with
  | .top => w.consumer = .idle
  | .stopping =>
    w.consumer = .idle ∧ (w.interrupted = false → w.closed = true ∧ w.mem.Holds cur .consumer .head)
  | .comparing head =>
    w.consumer = .idle ∧ (w.interrupted = false → w.closed = true ∧ head = (cur .head).val)
  | .popping => True
  | .exited =>
    w.consumer = .idle ∧ (w.interrupted = false → w.closed = true ∧ w.returned = w.pushed)

structure Inv (w : WeakState T Ts k) (cur : Atomic k → Store Ts k) : Prop where
  ring : (w.ring cur).Inv
  shadows : Shadows w.mem cur w.pushed.length w.popped.length w.producer.Inside w.consumer.Inside
  closed : w.closed = true → w.producer = .idle
  /-- A set `stop_` that comes from the feed thread carries the last store to `head_`. -/
  stops : ∀ m ∈ w.mem.history .stop, m.val ≠ 0 → w.interrupted = false →
    w.closed = true ∧ (cur .head).ts ≤ m.view.seen .head
  loop : w.LoopOk cur

theorem Inv.init (T Ts : Type) (k : Nat) [LinearOrder Ts] [OrderBot Ts] (blank : T) :
    ∃ cur, (WeakState.init T Ts k blank).Inv cur := by
  refine ⟨_, ?ring, ⟨fun x _ => Memory.current_init _ _ x, ?_, ?_, ?_, ?_, ?_, ?_, ?_, rfl⟩, ?_, ?_, ?_⟩
  case ring => exact SpscState.Inv.init T k blank
  · exact le_rfl
  · exact le_rfl
  · exact fun j _ _ m hm => Or.inl (List.mem_singleton.mp hm.1)
  · exact fun j _ _ m hm => Or.inl (List.mem_singleton.mp hm.1)
  · exact fun j _ _ _ _ u => Nat.zero_le _
  · exact False.elim
  · exact False.elim
  · exact fun h => absurd h (by simp [WeakState.init])
  · intro m hm hset
    rw [List.mem_singleton.mp hm] at hset
    exact absurd rfl hset
  · exact rfl

variable {w w' : WeakState T Ts k} {cur cur' : Atomic k → Store Ts k}

theorem Inv.le (h : w.Inv cur) : w.popped.length ≤ w.pushed.length := h.ring.fifo.length_le

theorem Inv.room (h : w.Inv cur) (hin : w.producer.Inside) :
    w.pushed.length < w.popped.length + 2 ^ k := by
  have hp := h.ring.producer
  unfold SpscState.ProducerOk at hp
  cases hpc : w.producer with
  | claimed pos =>
    simp only [WeakState.ring, hpc] at hp
    exact hp.2.2
  | written pos =>
    simp only [WeakState.ring, hpc] at hp
    exact hp.2.1
  | idle | loaded pos | published pos =>
    rw [hpc] at hin
    exact hin.elim

theorem Inv.filled (h : w.Inv cur) (hin : w.consumer.Inside) : w.popped.length < w.pushed.length := by
  have hc := h.ring.consumer
  unfold SpscState.ConsumerOk at hc
  cases hpc : w.consumer with
  | claimed pos =>
    simp only [WeakState.ring, hpc] at hc
    exact hc.2.2
  | taken pos =>
    simp only [WeakState.ring, hpc] at hc
    exact (List.getElem?_eq_some_iff.mp hc.2.2).1
  | idle | loaded pos | released pos =>
    rw [hpc] at hin
    exact hin.elim

/-! ## The feed thread -/

/-- As long as the feed thread has not left, nothing is known of its end. -/
theorem Inv.of_open (h : w.Inv cur) (hopen : w.closed = false) (hclosed : w'.closed = w.closed)
    (hinterrupted : w'.interrupted = w.interrupted) (hconsumer : w'.consumer = w.consumer)
    (hloop : w'.loop = w.loop) (hstop : w'.mem.history .stop = w.mem.history .stop)
    (hring : (w'.ring cur').Inv)
    (hshadows : Shadows w'.mem cur' w'.pushed.length w'.popped.length w'.producer.Inside
      w'.consumer.Inside) : w'.Inv cur' := by
  have hnot : w.closed ≠ true := by simp [hopen]
  refine ⟨hring, hshadows, fun hc => absurd (hclosed ▸ hc) hnot, ?_, ?_⟩
  · intro m hm hset hquiet
    exact absurd (h.stops m (hstop ▸ hm) hset (hinterrupted ▸ hquiet)).1 hnot
  · have hold := h.loop
    unfold LoopOk at hold ⊢
    rw [hloop, hconsumer, hinterrupted]
    cases hpc : w.loop with
    | top | popping =>
      rw [hpc] at hold
      exact hold
    | stopping | comparing head | exited =>
      rw [hpc] at hold
      exact ⟨hold.1, fun hquiet => absurd (hold.2 hquiet).1 hnot⟩

/-- `head_` is stored by the feed thread only, so it loads its own last store. -/
theorem Inv.start_push (h : w.Inv cur) (hk1 : 1 ≤ k) (hk : k ≤ 63) (moved : T → T) (next : T)
    (hopen : w.closed = false) (hpc : w.producer = .idle) {m : Store Ts k}
    (hm : w.mem.Readable .feed .head m) :
    Inv { w with
      mem := w.mem.load .feed .head .relaxed m
      item := next
      offered := next
      producer := .loaded m.val } cur := by
  have hnewest : m = cur .head :=
    (h.shadows.current .head (by simp)).eq_of_holds h.shadows.head hm
  have hring := h.ring.stepProducer hk1 hk moved next
  simp only [SpscState.stepProducer, WeakState.ring, hpc] at hring
  have hshadows := h.shadows.load .feed .head .relaxed m
  rw [hpc] at hshadows
  subst hnewest
  exact h.of_open hopen rfl rfl rfl rfl rfl hring hshadows

/-- Only the newest sequence lets a push through, and only if there is room. -/
theorem Inv.feed_reads (h : w.Inv cur) (hk1 : 1 ≤ k) (hk : k ≤ 63) {m : Store Ts k}
    (hm : w.mem.Readable .feed (.sequence (ticket k w.pushed.length)) m)
    (hval : m.val = UInt64.ofNat w.pushed.length) :
    m = cur (.sequence (ticket k w.pushed.length)) ∧ w.pushed.length < w.popped.length + 2 ^ k := by
  by_cases hroom : w.pushed.length < w.popped.length + 2 ^ k
  · refine ⟨?_, hroom⟩
    exact (h.shadows.feed _ h.le hroom m hm).resolve_right fun hold => hold.2 hval
  · have hfull : w.pushed.length = w.popped.length + 2 ^ k := le_antisymm h.ring.bounded (not_lt.mp hroom)
    have hslot : ticket k w.pushed.length = ticket k w.popped.length := by rw [hfull, ticket_lap]
    have hload := (h.ring.push_load hk1 hk).mpr hfull
    rw [slotOf_ofNat hk] at hload
    -- the full slot was published by the feed thread itself
    have hm' := h.shadows.feed _ le_rfl (Shadows.lt_lap _) m (hslot ▸ hm)
    have hnewest := hm'.resolve_right fun hold => by
      have hle := hold.1
      have hpos := Nat.two_pow_pos k
      omega
    refine absurd ?_ hload
    show (cur (.sequence (ticket k w.pushed.length))).val = UInt64.ofNat w.pushed.length
    rw [hslot, ← hnewest]
    exact hval

/-- The sequence load of a push. -/
theorem Inv.load_push (h : w.Inv cur) (hk1 : 1 ≤ k) (hk : k ≤ 63) (hopen : w.closed = false)
    {pos : UInt64} (hpc : w.producer = .loaded pos) {m : Store Ts k}
    (hm : w.mem.Readable .feed (.sequence (slotOf k pos)) m) :
    Inv { w with
      mem := w.mem.load .feed (.sequence (slotOf k pos)) .acquire m
      producer := if m.val - pos ≠ 0 then .idle else .claimed pos } cur := by
  have hp := h.ring.producer
  simp only [SpscState.ProducerOk, WeakState.ring, hpc] at hp
  obtain ⟨hhead, rfl, hitem⟩ := hp
  have hshadows := h.shadows
  rw [hpc] at hshadows
  rw [slotOf_ofNat hk] at hm ⊢
  have hr := h.ring
  split
  case isTrue =>
    have hload := hshadows.load .feed (.sequence (ticket k w.pushed.length)) .acquire m
    refine h.of_open hopen rfl rfl rfl rfl rfl ?_ hload
    exact ⟨hr.fifo, hr.bounded, hr.full, hr.free, hr.value, hhead, hr.consumer⟩
  case isFalse hfree =>
    rw [sub_ne_zero_iff, not_not] at hfree
    obtain ⟨rfl, hroom⟩ := h.feed_reads hk1 hk hm hfree
    have hclaim := hshadows.claimPush h.le hroom h.filled
    refine h.of_open hopen rfl rfl rfl rfl rfl ?_ hclaim
    exact ⟨hr.fifo, hr.bounded, hr.full, hr.free, hr.value, ⟨rfl, hitem, hroom⟩, hr.consumer⟩

/-- The plain access of a push. -/
theorem Inv.write_push (h : w.Inv cur) (hk1 : 1 ≤ k) (hk : k ≤ 63) (moved : T → T)
    (hopen : w.closed = false) {pos : UInt64} (hpc : w.producer = .claimed pos) :
    Inv { w with
      mem := w.mem.access .feed (slotOf k pos) w.item
      item := moved w.item
      producer := .written pos } cur := by
  have hp := h.ring.producer
  simp only [SpscState.ProducerOk, WeakState.ring, hpc] at hp
  have hring := h.ring.stepProducer hk1 hk moved w.item
  simp only [SpscState.stepProducer, SpscState.setStorage, WeakState.ring, hpc] at hring
  have hshadows := h.shadows
  rw [hpc] at hshadows
  have haccess := hshadows.accessPush h.le hp.2.2 h.filled w.item
  rw [hp.1] at hring ⊢
  refine h.of_open hopen rfl rfl rfl rfl rfl ?_ ?_
  · simp only [WeakState.ring, slots_access]
    exact hring
  · rw [slotOf_ofNat hk]
    exact haccess

/-- The sequence store of a push. -/
theorem Inv.publish_push [OrderBot Ts] {ts : Ts} (h : w.Inv cur) (hk1 : 1 ≤ k) (hk : k ≤ 63)
    (hopen : w.closed = false) {pos : UInt64} (hpc : w.producer = .written pos)
    (hfree : w.mem.Free .feed (.sequence (slotOf k pos)) ts) :
    Inv { w with
      mem := w.mem.store .feed (.sequence (slotOf k pos)) .release ts (pos + 1)
      producer := .published pos
      pushed := w.pushed ++ [w.offered] }
      (Function.update cur (.sequence (slotOf k pos))
        (w.mem.message .feed (.sequence (slotOf k pos)) .release ts (pos + 1))) := by
  have hp := h.ring.producer
  simp only [SpscState.ProducerOk, WeakState.ring, hpc] at hp
  have hring := h.ring.stepProducer hk1 hk id w.item
  simp only [SpscState.stepProducer, SpscState.setSequence, WeakState.ring, hpc] at hring
  have hshadows := h.shadows
  rw [hpc] at hshadows
  have hslot : slotOf k pos = ticket k w.pushed.length := by rw [hp.1, slotOf_ofNat hk]
  have hcur := h.ring.free _ le_rfl hp.2.1
  have hpublish := hshadows.publish h.le hp.2.1 h.filled (hslot ▸ hfree) hcur (pos + 1)
  refine h.of_open hopen rfl rfl rfl rfl (Memory.store_history_ne (by simp)) ?_ ?_
  · simp only [WeakState.ring, slots_store]
    exact hring
  · rw [hslot, List.length_append]
    exact hpublish

/-- `head_` is stored and the push returns. -/
theorem Inv.finish_push [OrderBot Ts] {ts : Ts} (h : w.Inv cur) (hk1 : 1 ≤ k) (hk : k ≤ 63)
    (hopen : w.closed = false) {pos : UInt64} (hpc : w.producer = .published pos)
    (hfree : w.mem.Free .feed .head ts) :
    Inv { w with mem := w.mem.store .feed .head .relaxed ts (pos + 1), producer := .idle }
      (Function.update cur .head (w.mem.message .feed .head .relaxed ts (pos + 1))) := by
  have hring := h.ring.stepProducer hk1 hk id w.item
  simp only [SpscState.stepProducer, WeakState.ring, hpc] at hring
  have hshadows := h.shadows
  rw [hpc] at hshadows
  have hindex := hshadows.index (Or.inl ⟨rfl, rfl⟩) hfree .relaxed (pos + 1)
  refine h.of_open hopen rfl rfl rfl rfl (Memory.store_history_ne (by simp)) ?_ hindex
  exact hring

theorem Inv.stepPush [OrderBot Ts] (h : w.Inv cur) (hk1 : 1 ≤ k) (hk : k ≤ 63) (moved : T → T)
    (next : T) (n : Nat) (ts : Ts) (hopen : w.closed = false) :
    ∃ cur', (w.stepPush moved next n ts).Inv cur' := by
  unfold WeakState.stepPush
  cases hpc : w.producer with
  | idle =>
    dsimp only
    split
    case h_1 => exact ⟨cur, h⟩
    case h_2 m hpick =>
      exact ⟨cur, h.start_push hk1 hk moved next hopen hpc (Memory.readable_of_pick hpick)⟩
  | loaded pos =>
    dsimp only
    split
    case h_1 => exact ⟨cur, h⟩
    case h_2 m hpick => exact ⟨cur, h.load_push hk1 hk hopen hpc (Memory.readable_of_pick hpick)⟩
  | claimed pos => exact ⟨cur, h.write_push hk1 hk moved hopen hpc⟩
  | written pos =>
    dsimp only
    split
    case isTrue hfree => exact ⟨_, h.publish_push hk1 hk hopen hpc hfree⟩
    case isFalse => exact ⟨cur, h⟩
  | published pos =>
    dsimp only
    split
    case isTrue hfree => exact ⟨_, h.finish_push hk1 hk hopen hpc hfree⟩
    case isFalse => exact ⟨cur, h⟩

/-! ## The consumer -/

/-- A step of the consumer leaves `head_`, `stop_` and the feed thread alone. -/
theorem Inv.of_consumer (h : w.Inv cur) (hclosed : w'.closed = w.closed)
    (hinterrupted : w'.interrupted = w.interrupted) (hproducer : w'.producer = w.producer)
    (hstop : w'.mem.history .stop = w.mem.history .stop) (hhead : cur' .head = cur .head)
    (hring : (w'.ring cur').Inv)
    (hshadows : Shadows w'.mem cur' w'.pushed.length w'.popped.length w'.producer.Inside
      w'.consumer.Inside) (hloop : w'.LoopOk cur') : w'.Inv cur' := by
  refine ⟨hring, hshadows, ?_, ?_, hloop⟩
  · rw [hclosed, hproducer]
    exact h.closed
  · rw [hstop, hinterrupted, hclosed, hhead]
    exact h.stops

/-- The loads of the loop change nothing but what the consumer knows. -/
theorem Inv.load_loop (h : w.Inv cur) (x : Atomic k) (order : LoadOrder) (m : Store Ts k) {loop : LoopPc}
    (hloop : LoopOk { w with mem := w.mem.load .consumer x order m, loop := loop } cur) :
    Inv { w with mem := w.mem.load .consumer x order m, loop := loop } cur :=
  h.of_consumer rfl rfl rfl rfl rfl h.ring (h.shadows.load .consumer x order m) hloop

/-- `tail_` is stored by the consumer only. -/
theorem Inv.start_pop (h : w.Inv cur) (hk : k ≤ 63) (hpc : w.consumer = .idle)
    (hloop : w.loop = .popping) {m : Store Ts k} (hm : w.mem.Readable .consumer .tail m) :
    Inv { w with mem := w.mem.load .consumer .tail .relaxed m, consumer := .loaded m.val } cur := by
  have hnewest : m = cur .tail :=
    (h.shadows.current .tail (by simp)).eq_of_holds h.shadows.tail hm
  have hring := h.ring.stepConsumer hk id
  simp only [SpscState.stepConsumer, WeakState.ring, hpc] at hring
  have hshadows := h.shadows.load .consumer .tail .relaxed m
  rw [hpc] at hshadows
  subst hnewest
  refine h.of_consumer rfl rfl rfl rfl rfl hring hshadows ?_
  simp only [LoopOk, hloop]

/-- Only the newest sequence lets a pop through, and only if there is a value. -/
theorem Inv.consumer_reads (h : w.Inv cur) (hk : k ≤ 63) {m : Store Ts k}
    (hm : w.mem.Readable .consumer (.sequence (ticket k w.popped.length)) m)
    (hval : m.val = UInt64.ofNat (w.popped.length + 1)) :
    m = cur (.sequence (ticket k w.popped.length)) ∧ w.popped.length < w.pushed.length := by
  have hnewest := (h.shadows.consumer _ le_rfl (Shadows.lt_lap _) m hm).resolve_right
    fun hold => hold.2 hval
  refine ⟨hnewest, lt_of_le_of_ne h.le fun hnone => ?_⟩
  have hload := (h.ring.pop_load hk).mpr hnone.symm
  rw [slotOf_ofNat hk, ofNat_succ] at hload
  refine absurd ?_ hload
  show (cur (.sequence (ticket k w.popped.length))).val = UInt64.ofNat (w.popped.length + 1)
  rw [← hnewest]
  exact hval

/-- The sequence load of a pop. -/
theorem Inv.load_pop (h : w.Inv cur) (hk : k ≤ 63) {pos : UInt64} (hpc : w.consumer = .loaded pos)
    (hloop : w.loop = .popping) {m : Store Ts k}
    (hm : w.mem.Readable .consumer (.sequence (slotOf k pos)) m) :
    let mem := w.mem.load .consumer (.sequence (slotOf k pos)) .acquire m
    Inv (if m.val - (pos + 1) ≠ 0 then { w with mem, consumer := .idle, loop := .top }
      else { w with mem, consumer := .claimed pos }) cur := by
  have hc := h.ring.consumer
  simp only [SpscState.ConsumerOk, WeakState.ring, hpc] at hc
  obtain ⟨htail, rfl, hret⟩ := hc
  have hshadows := h.shadows
  rw [hpc] at hshadows
  rw [slotOf_ofNat hk] at hm ⊢
  have hr := h.ring
  have hvalue : ∀ j, w.popped.length ≤ j → j < w.pushed.length →
      w.pushed[j]? = some ((w.ring cur).slots (ticket k j)).storage := by
    intro j hj hj'
    refine hr.value j hj hj' fun ht => ?_
    exact SpscState.not_taken (s := w.ring cur) hpc (by simp) ht.2
  intro mem
  split
  case isTrue =>
    have hload := hshadows.load .consumer (.sequence (ticket k w.popped.length)) .acquire m
    refine h.of_consumer rfl rfl rfl rfl rfl ?_ hload rfl
    exact ⟨hr.fifo, hr.bounded, hr.full, hr.free, fun j hj hj' _ => hvalue j hj hj', hr.producer,
      ⟨htail, hret⟩⟩
  case isFalse hsome =>
    rw [sub_ne_zero_iff, not_not, ofNat_succ] at hsome
    obtain ⟨rfl, hlt⟩ := h.consumer_reads hk hm hsome
    have hclaim := hshadows.claimPop hlt
    refine h.of_consumer rfl rfl rfl rfl rfl ?_ hclaim ?_
    · exact ⟨hr.fifo, hr.bounded, hr.full, hr.free, fun j hj hj' _ => hvalue j hj hj', hr.producer,
        ⟨rfl, hret, hlt⟩⟩
    · simp only [LoopOk, hloop]

/-- The plain access of a pop. -/
theorem Inv.take_pop (h : w.Inv cur) (hk : k ≤ 63) (moved : T → T) {pos : UInt64}
    (hpc : w.consumer = .claimed pos) (hloop : w.loop = .popping) :
    let v := (w.mem.cells (slotOf k pos)).val
    Inv { w with
      mem := w.mem.access .consumer (slotOf k pos) (moved v)
      out := v
      consumer := .taken pos } cur := by
  have hc := h.ring.consumer
  simp only [SpscState.ConsumerOk, WeakState.ring, hpc] at hc
  have hring := h.ring.stepConsumer hk moved
  simp only [SpscState.stepConsumer, SpscState.setStorage, WeakState.ring, hpc] at hring
  have hshadows := h.shadows
  rw [hpc] at hshadows
  have hslot : slotOf k pos = ticket k w.popped.length := by rw [hc.1, slotOf_ofNat hk]
  intro v
  have haccess := hshadows.accessPop hc.2.2 h.room (moved v)
  refine h.of_consumer rfl rfl rfl rfl rfl ?_ ?_ ?_
  · simp only [WeakState.ring, slots_access]
    exact hring
  · rw [hslot]
    exact haccess
  · simp only [LoopOk, hloop]

/-- The sequence store of a pop. -/
theorem Inv.release_pop [OrderBot Ts] {ts : Ts} (h : w.Inv cur) (hk1 : 1 ≤ k) (hk : k ≤ 63)
    {pos : UInt64} (hpc : w.consumer = .taken pos) (hloop : w.loop = .popping)
    (hfree : w.mem.Free .consumer (.sequence (slotOf k pos)) ts) :
    Inv { w with
      mem := w.mem.store .consumer (.sequence (slotOf k pos)) .release ts (pos + UInt64.ofNat (2 ^ k))
      consumer := .released pos
      popped := w.popped ++ [w.out] }
      (Function.update cur (.sequence (slotOf k pos))
        (w.mem.message .consumer (.sequence (slotOf k pos)) .release ts
          (pos + UInt64.ofNat (2 ^ k)))) := by
  have hc := h.ring.consumer
  simp only [SpscState.ConsumerOk, WeakState.ring, hpc] at hc
  have hring := h.ring.stepConsumer hk id
  simp only [SpscState.stepConsumer, SpscState.setSequence, WeakState.ring, hpc] at hring
  have hshadows := h.shadows
  rw [hpc] at hshadows
  have hslot : slotOf k pos = ticket k w.popped.length := by rw [hc.1, slotOf_ofNat hk]
  have hsome : w.popped.length < w.pushed.length := (List.getElem?_eq_some_iff.mp hc.2.2).1
  have hcur := h.ring.full _ le_rfl hsome
  have hrelease := hshadows.release hk1 hk hsome h.ring.bounded h.room (hslot ▸ hfree) hcur
    (pos + UInt64.ofNat (2 ^ k))
  refine h.of_consumer rfl rfl rfl (Memory.store_history_ne (by simp))
    (Function.update_of_ne (by simp) _ _) ?_ ?_ ?_
  · simp only [WeakState.ring, slots_store]
    exact hring
  · rw [hslot, List.length_append]
    exact hrelease
  · simp only [LoopOk, hloop]

/-- `tail_` is stored and the pop returns. -/
theorem Inv.finish_pop [OrderBot Ts] {ts : Ts} (h : w.Inv cur) (hk : k ≤ 63) {pos : UInt64}
    (hpc : w.consumer = .released pos) (hfree : w.mem.Free .consumer .tail ts) :
    Inv { w with
      mem := w.mem.store .consumer .tail .relaxed ts (pos + 1)
      consumer := .idle
      loop := .top
      returned := w.returned ++ [w.out] }
      (Function.update cur .tail (w.mem.message .consumer .tail .relaxed ts (pos + 1))) := by
  have hring := h.ring.stepConsumer hk id
  simp only [SpscState.stepConsumer, WeakState.ring, hpc] at hring
  have hshadows := h.shadows
  rw [hpc] at hshadows
  have hindex := hshadows.index (Or.inr ⟨rfl, rfl⟩) hfree .relaxed (pos + 1)
  refine h.of_consumer rfl rfl rfl (Memory.store_history_ne (by simp))
    (Function.update_of_ne (by simp) _ _) ?_ hindex rfl
  exact hring

/-- With the feed thread gone and the consumer between two pops, equal indices mean that everything has
been returned. -/
theorem Inv.drained (h : w.Inv cur) (hk : k ≤ 63) (hclosed : w.closed = true)
    (hidle : w.consumer = .idle) (heq : (cur .head).val = (cur .tail).val) :
    w.returned = w.pushed := by
  have hproducer := h.closed hclosed
  have hhead : (w.ring cur).HeadOk := by
    simp only [SpscState.HeadOk, WeakState.ring, hproducer]
  have hflight : (w.ring cur).pushed = w.pushed ++ (w.ring cur).inFlight := by
    simp only [SpscState.inFlight, WeakState.ring, hproducer, List.append_nil]
  exact ((h.ring.empty_iff hhead hk hidle hflight).mp heq).symm

variable [OrderBot Ts]

theorem Inv.stepPop (h : w.Inv cur) (hk1 : 1 ≤ k) (hk : k ≤ 63) (moved : T → T) (n : Nat) (ts : Ts)
    (hloop : w.loop = .popping) : ∃ cur', (w.stepPop moved n ts).Inv cur' := by
  unfold WeakState.stepPop
  cases hpc : w.consumer with
  | idle =>
    dsimp only
    split
    case h_1 => exact ⟨cur, h⟩
    case h_2 m hpick => exact ⟨cur, h.start_pop hk hpc hloop (Memory.readable_of_pick hpick)⟩
  | loaded pos =>
    dsimp only
    split
    case h_1 => exact ⟨cur, h⟩
    case h_2 m hpick => exact ⟨cur, h.load_pop hk hpc hloop (Memory.readable_of_pick hpick)⟩
  | claimed pos => exact ⟨cur, h.take_pop hk moved hpc hloop⟩
  | taken pos =>
    dsimp only
    split
    case isTrue hfree => exact ⟨_, h.release_pop hk1 hk hpc hloop hfree⟩
    case isFalse => exact ⟨cur, h⟩
  | released pos =>
    dsimp only
    split
    case isTrue hfree => exact ⟨_, h.finish_pop hk hpc hfree⟩
    case isFalse => exact ⟨cur, h⟩

/-- **A step of the loop.**  A `stop_` that the feed thread has set carries its last `head_`, so `empty`
does not compare with an old one. -/
theorem Inv.stepLoop (h : w.Inv cur) (hk1 : 1 ≤ k) (hk : k ≤ 63) (moved : T → T) (n : Nat) (ts : Ts) :
    ∃ cur', (w.stepLoop moved n ts).Inv cur' := by
  have hold := h.loop
  unfold WeakState.stepLoop
  unfold LoopOk at hold
  cases hpc : w.loop with
  | top =>
    rw [hpc] at hold
    dsimp only
    split
    case h_1 => exact ⟨cur, h⟩
    case h_2 m hpick =>
      have hm := Memory.readable_of_pick hpick
      refine ⟨cur, h.load_loop .stop .acquire m ?_⟩
      by_cases hset : m.val ≠ 0
      · rw [if_pos hset]
        refine ⟨hold, fun hquiet => ?_⟩
        obtain ⟨hclosed, hcarries⟩ := h.stops m hm.1 hset hquiet
        exact ⟨hclosed, hcarries.trans (View.seen_le Memory.le_load_acquire Atomic.head)⟩
      · rw [if_neg hset]
        exact trivial
  | stopping =>
    rw [hpc] at hold
    dsimp only
    split
    case h_1 => exact ⟨cur, h⟩
    case h_2 m hpick =>
      refine ⟨cur, h.load_loop .head .acquire m ⟨hold.1, fun hquiet => ?_⟩⟩
      obtain ⟨hclosed, hholds⟩ := hold.2 hquiet
      have hnewest := (h.shadows.current .head (by simp)).eq_of_holds hholds
        (Memory.readable_of_pick hpick)
      exact ⟨hclosed, congrArg Message.val hnewest⟩
  | comparing head =>
    rw [hpc] at hold
    dsimp only
    split
    case h_1 => exact ⟨cur, h⟩
    case h_2 m hpick =>
      have hnewest := (h.shadows.current .tail (by simp)).eq_of_holds h.shadows.tail
        (Memory.readable_of_pick hpick)
      refine ⟨cur, h.load_loop .tail .acquire m ?_⟩
      by_cases heq : head = m.val
      · rw [if_pos heq]
        refine ⟨hold.1, fun hquiet => ?_⟩
        obtain ⟨hclosed, hhead⟩ := hold.2 hquiet
        exact ⟨hclosed, h.drained hk hclosed hold.1 (by rw [← hhead, heq, hnewest])⟩
      · rw [if_neg heq]
        exact trivial
  | popping => exact h.stepPop hk1 hk moved n ts hpc
  | exited => exact ⟨cur, h⟩

/-! ## The stop -/

/-- A store to `stop_` by a thread other than the consumer. -/
theorem Inv.stop (h : w.Inv cur) (t : HandlerThread) (ts : Ts) {closed interrupted : Bool}
    (hclosed : closed = true → w.producer = .idle) (hmore : w.closed = true → closed = true)
    (hquiet : interrupted = false → w.interrupted = false)
    (hmessage : interrupted = false → closed = true ∧
      (cur .head).ts ≤ (w.mem.message t .stop .release ts 1).view.seen .head) :
    Inv { w with
      mem := w.mem.store t .stop .release ts 1
      closed := closed
      interrupted := interrupted } cur := by
  refine ⟨h.ring, h.shadows.stop t .release ts 1, hclosed, ?_, ?_⟩
  · intro m hm hset hq
    rw [Memory.store_history_self, List.mem_cons] at hm
    rcases hm with rfl | hm
    · exact hmessage hq
    · exact ⟨hmore (h.stops m hm hset (hquiet hq)).1, (h.stops m hm hset (hquiet hq)).2⟩
  · have hold := h.loop
    unfold LoopOk at hold ⊢
    cases hpc : w.loop with
    | top | popping =>
      rw [hpc] at hold
      exact hold
    | stopping =>
      rw [hpc] at hold
      refine ⟨hold.1, fun hq => ⟨hmore (hold.2 (hquiet hq)).1, ?_⟩⟩
      exact (hold.2 (hquiet hq)).2.mono Memory.view_le_store
    | comparing head | exited =>
      rw [hpc] at hold
      exact ⟨hold.1, fun hq => ⟨hmore (hold.2 (hquiet hq)).1, (hold.2 (hquiet hq)).2⟩⟩

theorem Inv.finish (h : w.Inv cur) (ts : Ts) : (w.finish ts).Inv cur := by
  unfold WeakState.finish
  split
  case isTrue hready =>
    refine h.stop .feed ts (fun _ => hready.1) (fun _ => rfl) id fun _ => ⟨rfl, ?_⟩
    exact h.shadows.head.trans (View.seen_le Memory.view_le_message Atomic.head)
  case isFalse => exact h

theorem Inv.interrupt (h : w.Inv cur) (ts : Ts) : (w.interrupt ts).Inv cur := by
  unfold WeakState.interrupt
  split
  case isTrue hfree =>
    exact h.stop .owner ts h.closed id (fun hq => absurd hq (by simp)) (fun hq => absurd hq (by simp))
  case isFalse => exact h

theorem Inv.step (h : w.Inv cur) (hk1 : 1 ≤ k) (hk : k ≤ 63) (moved : T → T) (turn : WeakTurn T Ts) :
    ∃ cur', (w.step moved turn).Inv cur' := by
  cases turn with
  | feed next n ts =>
    simp only [WeakState.step]
    split
    case isTrue => exact ⟨cur, h⟩
    case isFalse hopen => exact h.stepPush hk1 hk moved next n ts (Bool.eq_false_of_not_eq_true hopen)
  | finish ts =>
    simp only [WeakState.step]
    split
    case isTrue => exact ⟨cur, h⟩
    case isFalse => exact ⟨cur, h.finish ts⟩
  | consumer n ts => exact h.stepLoop hk1 hk moved n ts
  | owner ts => exact ⟨cur, h.interrupt ts⟩

end WeakState

/-! ## Every run -/

variable [OrderBot Ts]

theorem runWeak_inv (hk1 : 1 ≤ k) (hk : k ≤ 63) (moved : T → T) (blank : T)
    (turns : List (WeakTurn T Ts)) : ∃ cur, (runWeak k moved blank turns).Inv cur := by
  refine List.foldlRecOn (motive := fun w : WeakState T Ts k => ∃ cur, w.Inv cur) turns _
    (WeakState.Inv.init T Ts k blank) fun w h turn _ => ?_
  obtain ⟨cur, hinv⟩ := h
  exact hinv.step hk1 hk moved turn

/-- **The memory orders are enough.**  In every state of every run, with `2 ≤ 2^k ≤ 2^63` slots and
whatever store each load returns: no two accesses to the storage of a slot race; what the pops have
returned is a prefix of what the pushes have put in, of which at most `2^k` values are outstanding; and
when the consumer has left its loop, and nobody but the feed thread has requested the stop, everything
that was pushed has been returned. -/
theorem weak_handoff (hk1 : 1 ≤ k) (hk : k ≤ 63) (moved : T → T) (blank : T)
    (turns : List (WeakTurn T Ts)) :
    let w := runWeak k moved blank turns
    w.mem.raced = false ∧ w.popped <+: w.pushed ∧ w.returned <+: w.pushed ∧
    w.pushed.length ≤ w.popped.length + 2 ^ k ∧
    (w.loop = .exited → w.interrupted = false → w.returned = w.pushed) := by
  intro w
  obtain ⟨cur, h⟩ : ∃ cur, w.Inv cur := runWeak_inv hk1 hk moved blank turns
  refine ⟨h.shadows.quiet, h.ring.fifo, h.ring.returned_of_pushed, h.ring.bounded, ?_⟩
  intro hexited hquiet
  have hloop := h.loop
  simp only [WeakState.LoopOk, hexited] at hloop
  exact (hloop.2 hquiet).2

/-- A push, a pop that loads the sequence from before the push, the stop, and the drain. -/
theorem weak_handoff_stale :
    let push := [.feed 7 0 0, .feed 7 0 0, .feed 7 0 0, .feed 7 0 1, .feed 7 0 1]
    let stale := [.consumer 0 0, .consumer 0 0, .consumer 1 0]
    let drain := .finish 1 :: List.replicate 6 (.consumer 0 0) ++
      [.consumer 0 2, .consumer 0 1, .consumer 0 0, .consumer 0 0, .consumer 0 0]
    let w : WeakState Nat Nat 1 := runWeak 1 (fun _ => 0) 0 (push ++ stale ++ drain)
    w.loop = .exited ∧ w.returned = w.pushed := by
  intro push stale drain w
  have hhandoff := weak_handoff (by decide : 1 ≤ 1) (by decide) (fun _ => 0) 0 (push ++ stale ++ drain)
  exact ⟨by decide, hhandoff.2.2.2.2 (by decide) (by decide)⟩

end MarketDataPipeline.Queue
