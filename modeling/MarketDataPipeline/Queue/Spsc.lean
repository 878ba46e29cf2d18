/-
# MarketDataPipeline.Queue.Spsc — the ring between the feed thread and the consumer.

`SpscQueue` with one producer thread that keeps calling `try_push` and one consumer thread that keeps
calling `try_pop`.  Every atomic load and store, and every access to a slot's storage, is a step of its
own; a run is a list of turns, so all interleavings are covered.  Indices and slot sequences are 64-bit
words and wrap; the number of values that have gone through the ring is not bounded.

The argument `offered` of the push in progress and the three logs are not part of the program: a value
enters `pushed` with the sequence store of its push, `popped` with the sequence store of its pop and
`returned` when that pop returns.  With `P` and `C` their lengths, the
invariant (`Inv`) is about the tickets `C ≤ j < C + Capacity`, one for each slot: slot `j % Capacity`
carries the sequence `j + 1` and the value of push `j` if `j < P`, and the sequence `j` otherwise.
-/
import Mathlib.Data.Nat.ModEq
import Mathlib.Data.List.Infix
import Mathlib.Logic.Function.Basic

namespace MarketDataPipeline.Queue

/-! ## The program -/

structure Slot (T : Type) where
  storage : T
  sequence : UInt64

/-- Where the producer is in `try_push`. -/
inductive ProducerPc where
  /-- Between calls. -/
  | idle
  /-- `head_` has been loaded. -/
  | loaded (pos : UInt64)
  /-- The sequence load found the slot free. -/
  | claimed (pos : UInt64)
  /-- The item has been moved into the slot. -/
  | written (pos : UInt64)
  /-- The sequence has been stored; `head_` is still to be stored. -/
  | published (pos : UInt64)
  deriving DecidableEq

/-- Where the consumer is in `try_pop`. -/
inductive ConsumerPc where
  | idle
  | loaded (pos : UInt64)
  | claimed (pos : UInt64)
  | taken (pos : UInt64)
  | released (pos : UInt64)
  deriving DecidableEq

/-- The ring with `2^k` slots, the two threads, the object the push moves from (`item`) and the one the
pop moves to (`out`); then the value `item` had when the push was called, and the logs. -/
structure SpscState (T : Type) (k : Nat) where
  head : UInt64
  tail : UInt64
  slots : Fin (2 ^ k) → Slot T
  producer : ProducerPc
  consumer : ConsumerPc
  item : T
  out : T
  offered : T
  pushed : List T
  popped : List T
  returned : List T

instance neZeroCapacity (k : Nat) : NeZero (2 ^ k) := ⟨Nat.pos_iff_ne_zero.mp (Nat.two_pow_pos k)⟩

/-- Whose turn it is.  A producer that is between calls starts a new one with the given item. -/
inductive Turn (T : Type) where
  | producer (next : T)
  | consumer

variable {T : Type} {k : Nat}

/-- `pos & kMask`. -/
def slotOf (k : Nat) (pos : UInt64) : Fin (2 ^ k) :=
  Fin.ofNat (2 ^ k) (pos &&& (UInt64.ofNat (2 ^ k) - 1)).toNat

/-- The constructor. -/
def SpscState.init (T : Type) (k : Nat) (blank : T) : SpscState T k where
  head := 0
  tail := 0
  slots := fun i => ⟨blank, UInt64.ofNat i.val⟩
  producer := .idle
  consumer := .idle
  item := blank
  out := blank
  offered := blank
  pushed := []
  popped := []
  returned := []

namespace SpscState

def setStorage (s : SpscState T k) (pos : UInt64) (v : T) : SpscState T k :=
  let slot := s.slots (slotOf k pos)
  { s with slots := Function.update s.slots (slotOf k pos) { slot with storage := v } }

def setSequence (s : SpscState T k) (pos seq : UInt64) : SpscState T k :=
  let slot := s.slots (slotOf k pos)
  { s with slots := Function.update s.slots (slotOf k pos) { slot with sequence := seq } }

/-- The next step of `try_push`.  `moved` says what a value looks like after it has been moved from. The
difference is tested against zero only, so its sign does not matter. -/
def stepProducer (moved : T → T) (next : T) (s : SpscState T k) : SpscState T k :=
  match s.producer with
  -- `head_.load`
  | .idle => { s with item := next, offered := next, producer := .loaded s.head }
  -- `slot.sequence.load`; `return false` if the slot is not free
  | .loaded pos =>
    let seq := (s.slots (slotOf k pos)).sequence
    if seq - pos ≠ 0 then { s with producer := .idle } else { s with producer := .claimed pos }
  -- `slot.storage = std::move(item)`
  | .claimed pos => { s.setStorage pos s.item with item := moved s.item, producer := .written pos }
  -- `slot.sequence.store(pos + 1)`: from here on the value is outstanding
  | .written pos =>
    { s.setSequence pos (pos + 1) with
      producer := .published pos
      pushed := s.pushed ++ [s.offered] }
  -- `head_.store(pos + 1)`; `return true`
  | .published pos => { s with head := pos + 1, producer := .idle }

/-- The next step of `try_pop`. -/
def stepConsumer (moved : T → T) (s : SpscState T k) : SpscState T k :=
  match s.consumer with
  -- `tail_.load`
  | .idle => { s with consumer := .loaded s.tail }
  -- `slot.sequence.load`; `return false` if the slot holds no value
  | .loaded pos =>
    let seq := (s.slots (slotOf k pos)).sequence
    if seq - (pos + 1) ≠ 0 then { s with consumer := .idle } else { s with consumer := .claimed pos }
  -- `out = std::move(slot.storage)`
  | .claimed pos =>
    let v := (s.slots (slotOf k pos)).storage
    { s.setStorage pos (moved v) with out := v, consumer := .taken pos }
  -- `slot.sequence.store(pos + Capacity)`: from here on the slot can be used again
  | .taken pos =>
    { s.setSequence pos (pos + UInt64.ofNat (2 ^ k)) with
      consumer := .released pos
      popped := s.popped ++ [s.out] }
  -- `tail_.store(pos + 1)`; `return true`
  | .released pos =>
    { s with tail := pos + 1, consumer := .idle, returned := s.returned ++ [s.out] }

def step (moved : T → T) (s : SpscState T k) : Turn T → SpscState T k
  | .producer next => s.stepProducer moved next
  | .consumer => s.stepConsumer moved

end SpscState

/-- The state after a list of turns. -/
def runSpsc (k : Nat) (moved : T → T) (blank : T) (turns : List (Turn T)) : SpscState T k :=
  turns.foldl (SpscState.step moved) (SpscState.init T k blank)

/-! ## Words and slots -/

/-- The slot of ticket `n`. -/
def ticket (k n : Nat) : Fin (2 ^ k) := Fin.ofNat (2 ^ k) n

theorem slotOf_ofNat (hk : k ≤ 63) (n : Nat) : slotOf k (UInt64.ofNat n) = ticket k n := by
  have hlt : 2 ^ k < 2 ^ 64 := Nat.pow_lt_pow_right (by decide) (by omega)
  have hcap : (UInt64.ofNat (2 ^ k)).toNat = 2 ^ k := by
    rw [UInt64.toNat_ofNat', Nat.mod_eq_of_lt hlt]
  have hmask : (UInt64.ofNat (2 ^ k) - 1).toNat = 2 ^ k - 1 := by
    rw [UInt64.toNat_sub_of_le _ _ (by rw [UInt64.le_iff_toNat_le, hcap]; exact Nat.one_le_two_pow),
      hcap, UInt64.toNat_one]
  unfold slotOf ticket
  apply Fin.ext
  rw [Fin.val_ofNat, Fin.val_ofNat, UInt64.toNat_and, hmask, Nat.and_two_pow_sub_one_eq_mod,
    Nat.mod_mod, UInt64.toNat_ofNat', Nat.mod_mod_of_dvd _ (Nat.pow_dvd_pow 2 (by omega))]

/-- Tickets less than a lap apart are in different slots. -/
theorem ticket_inj {i j C : Nat} (hi : C ≤ i) (hi' : i < C + 2 ^ k) (hj : C ≤ j)
    (hj' : j < C + 2 ^ k) (h : ticket k i = ticket k j) : i = j := by
  have hval := congrArg Fin.val h
  unfold ticket at hval
  rw [Fin.val_ofNat, Fin.val_ofNat] at hval
  have hmod : i ≡ j [MOD 2 ^ k] := hval
  exact hmod.eq_of_abs_lt (by rw [abs_lt]; omega)

theorem ticket_lap (n : Nat) : ticket k (n + 2 ^ k) = ticket k n := by
  unfold ticket
  apply Fin.ext
  rw [Fin.val_ofNat, Fin.val_ofNat, Nat.add_mod_right]

theorem ofNat_succ (n : Nat) : UInt64.ofNat n + 1 = UInt64.ofNat (n + 1) := by
  rw [UInt64.ofNat_add]
  rfl

/-- Two counters less than `2^64` apart have the same word only if they are equal. -/
theorem ofNat_add_ne {n d : Nat} (hd : d ≠ 0) (hlt : d < 2 ^ 64) :
    UInt64.ofNat (n + d) ≠ UInt64.ofNat n := by
  intro h
  have hval := congrArg UInt64.toNat h
  rw [UInt64.toNat_ofNat', UInt64.toNat_ofNat'] at hval
  omega

theorem sub_ne_zero_iff {a b : UInt64} : a - b ≠ 0 ↔ a ≠ b := by
  rw [not_iff_not, UInt64.sub_eq_iff_eq_add, UInt64.zero_add]

/-! ## The invariant -/

namespace SpscState

/-- What the producer's local state says about the ring. -/
def ProducerOk (s : SpscState T k) : Prop :=
  match s.producer with
  | .idle => s.head = UInt64.ofNat s.pushed.length
  | .loaded pos =>
    s.head = UInt64.ofNat s.pushed.length ∧ pos = UInt64.ofNat s.pushed.length ∧ s.item = s.offered
  | .claimed pos =>
    pos = UInt64.ofNat s.pushed.length ∧ s.item = s.offered ∧
      s.pushed.length < s.popped.length + 2 ^ k
  | .written pos =>
    pos = UInt64.ofNat s.pushed.length ∧ s.pushed.length < s.popped.length + 2 ^ k ∧
      (s.slots (ticket k s.pushed.length)).storage = s.offered
  | .published pos => pos + 1 = UInt64.ofNat s.pushed.length

/-- What the consumer's local state says about the ring. -/
def ConsumerOk (s : SpscState T k) : Prop :=
  match s.consumer with
  | .idle => s.tail = UInt64.ofNat s.popped.length ∧ s.returned = s.popped
  | .loaded pos =>
    s.tail = UInt64.ofNat s.popped.length ∧ pos = UInt64.ofNat s.popped.length ∧
      s.returned = s.popped
  | .claimed pos =>
    pos = UInt64.ofNat s.popped.length ∧ s.returned = s.popped ∧ s.popped.length < s.pushed.length
  | .taken pos =>
    pos = UInt64.ofNat s.popped.length ∧ s.returned = s.popped ∧
      s.pushed[s.popped.length]? = some s.out
  | .released pos =>
    pos + 1 = UInt64.ofNat s.popped.length ∧ s.returned ++ [s.out] = s.popped

/-- The consumer has moved the oldest value out of its slot. -/
def Taken (s : SpscState T k) : Prop := ∃ pos, s.consumer = .taken pos

/-- The tickets from `popped.length` up to a lap later, one for each slot. -/
structure Inv (s : SpscState T k) : Prop where
  fifo : s.popped <+: s.pushed
  bounded : s.pushed.length ≤ s.popped.length + 2 ^ k
  full : ∀ j, s.popped.length ≤ j → j < s.pushed.length →
    (s.slots (ticket k j)).sequence = UInt64.ofNat (j + 1)
  free : ∀ j, s.pushed.length ≤ j → j < s.popped.length + 2 ^ k →
    (s.slots (ticket k j)).sequence = UInt64.ofNat j
  value : ∀ j, s.popped.length ≤ j → j < s.pushed.length → ¬ (j = s.popped.length ∧ s.Taken) →
    s.pushed[j]? = some (s.slots (ticket k j)).storage
  producer : s.ProducerOk
  consumer : s.ConsumerOk

/-! ## Writing to a slot -/

section Writes

variable (s : SpscState T k)

@[simp]
theorem setStorage_sequence (pos : UInt64) (v : T) (i : Fin (2 ^ k)) :
    ((s.setStorage pos v).slots i).sequence = (s.slots i).sequence := by
  unfold setStorage
  by_cases h : i = slotOf k pos
  · subst h
    simp only [Function.update_self]
  · simp only [Function.update_of_ne h]

@[simp]
theorem setSequence_storage (pos seq : UInt64) (i : Fin (2 ^ k)) :
    ((s.setSequence pos seq).slots i).storage = (s.slots i).storage := by
  unfold setSequence
  by_cases h : i = slotOf k pos
  · subst h
    simp only [Function.update_self]
  · simp only [Function.update_of_ne h]

theorem setStorage_self (pos : UInt64) (v : T) :
    ((s.setStorage pos v).slots (slotOf k pos)).storage = v := by
  simp only [setStorage, Function.update_self]

theorem setStorage_ne {pos : UInt64} {v : T} {i : Fin (2 ^ k)} (h : i ≠ slotOf k pos) :
    (s.setStorage pos v).slots i = s.slots i := by
  simp only [setStorage, Function.update_of_ne h]

theorem setSequence_self (pos seq : UInt64) :
    ((s.setSequence pos seq).slots (slotOf k pos)).sequence = seq := by
  simp only [setSequence, Function.update_self]

theorem setSequence_ne {pos seq : UInt64} {i : Fin (2 ^ k)} (h : i ≠ slotOf k pos) :
    (s.setSequence pos seq).slots i = s.slots i := by
  simp only [setSequence, Function.update_of_ne h]

end Writes

/-- Of the tickets in use, only `n` itself is in the slot of `n`. -/
theorem ticket_ne {j n C : Nat} (hj : C ≤ j) (hj' : j < C + 2 ^ k) (hn : C ≤ n) (hn' : n < C + 2 ^ k)
    (hne : j ≠ n) : ticket k j ≠ ticket k n := fun h =>
  hne (ticket_inj hj hj' hn hn' h)

theorem not_taken {s : SpscState T k} {pc : ConsumerPc} (h : s.consumer = pc)
    (hpc : ∀ pos, pc ≠ .taken pos) : ¬ s.Taken := by
  rintro ⟨pos, hpos⟩
  exact hpc pos (h.symm.trans hpos)

/-! ## The two sequence loads -/

variable {s : SpscState T k}

/-- The push finds its slot taken exactly when `Capacity` values are outstanding.  With a single slot
this would be false: the sequence of a full slot is the one of the next ticket. -/
theorem Inv.push_load (h : s.Inv) (hk1 : 1 ≤ k) (hk : k ≤ 63) :
    (s.slots (slotOf k (UInt64.ofNat s.pushed.length))).sequence ≠ UInt64.ofNat s.pushed.length ↔
      s.pushed.length = s.popped.length + 2 ^ k := by
  have hcap : 2 ^ k ≤ 2 ^ 63 := Nat.pow_le_pow_right (by decide) hk
  have htwo : 2 ^ 1 ≤ 2 ^ k := Nat.pow_le_pow_right (by decide) hk1
  rw [slotOf_ofNat hk]
  constructor
  · intro hne
    by_contra hfull
    have hlt : s.pushed.length < s.popped.length + 2 ^ k := lt_of_le_of_ne h.bounded hfull
    exact hne (h.free _ le_rfl hlt)
  · intro hfull
    -- ticket `P` is in the slot of the oldest value, one lap behind
    have hold := h.full s.popped.length le_rfl (by omega)
    have hsplit : s.popped.length + 2 ^ k = s.popped.length + 1 + (2 ^ k - 1) := by omega
    rw [hfull, ticket_lap, hold, hsplit]
    exact (ofNat_add_ne (by omega) (by omega)).symm

/-- The pop finds its slot empty exactly when nothing is outstanding. -/
theorem Inv.pop_load (h : s.Inv) (hk : k ≤ 63) :
    (s.slots (slotOf k (UInt64.ofNat s.popped.length))).sequence ≠
        UInt64.ofNat s.popped.length + 1 ↔
      s.pushed.length = s.popped.length := by
  have hpos : 0 < 2 ^ k := Nat.two_pow_pos k
  rw [slotOf_ofNat hk, ofNat_succ]
  constructor
  · intro hne
    by_contra hsome
    have hlt : s.popped.length < s.pushed.length :=
      lt_of_le_of_ne h.fifo.length_le (Ne.symm hsome)
    exact hne (h.full _ le_rfl hlt)
  · intro hnone
    rw [h.free _ hnone.le (by omega)]
    exact (ofNat_add_ne (by decide) (by decide)).symm

/-! ## Every step keeps the invariant -/

theorem Inv.init (T : Type) (k : Nat) (blank : T) : (SpscState.init T k blank).Inv where
  fifo := List.nil_prefix
  bounded := Nat.zero_le _
  full := fun j _ hj => absurd hj (Nat.not_lt_zero j)
  free := fun j _ hj => by
    have hlt : j < 2 ^ k := by simpa [SpscState.init] using hj
    simp only [SpscState.init, ticket, Fin.val_ofNat, Nat.mod_eq_of_lt hlt]
  value := fun j _ hj => absurd hj (Nat.not_lt_zero j)
  producer := rfl
  consumer := ⟨rfl, rfl⟩

/-- A step of the producer keeps what the consumer knows: its own words are untouched and values are
only added at the end. -/
theorem ConsumerOk.frame {s' : SpscState T k} (h : s.ConsumerOk) (hpc : s'.consumer = s.consumer)
    (htail : s'.tail = s.tail) (hout : s'.out = s.out) (hpopped : s'.popped = s.popped)
    (hret : s'.returned = s.returned) (hpushed : s.pushed <+: s'.pushed) : s'.ConsumerOk := by
  unfold ConsumerOk at h ⊢
  rw [hpc, htail, hout, hpopped, hret]
  cases hc : s.consumer with
  | idle | loaded pos | released pos =>
    rw [hc] at h
    exact h
  | claimed pos =>
    rw [hc] at h
    exact ⟨h.1, h.2.1, lt_of_lt_of_le h.2.2 hpushed.length_le⟩
  | taken pos =>
    rw [hc] at h
    obtain ⟨later, hlater⟩ := hpushed
    have hlt := (List.getElem?_eq_some_iff.mp h.2.2).1
    refine ⟨h.1, h.2.1, ?_⟩
    rw [← hlater, List.getElem?_append_left hlt]
    exact h.2.2

/-- A step of the consumer keeps what the producer knows: room is only made, and the slot of ticket `P`
is not the one the consumer writes to. -/
theorem ProducerOk.frame {s' : SpscState T k} (h : s.ProducerOk) (hpc : s'.producer = s.producer)
    (hhead : s'.head = s.head) (hitem : s'.item = s.item) (hoffered : s'.offered = s.offered)
    (hpushed : s'.pushed = s.pushed) (hpopped : s.popped.length ≤ s'.popped.length)
    (hslot : s.pushed.length < s.popped.length + 2 ^ k →
      (s'.slots (ticket k s.pushed.length)).storage =
        (s.slots (ticket k s.pushed.length)).storage) : s'.ProducerOk := by
  unfold ProducerOk at h ⊢
  rw [hpc, hhead, hitem, hoffered, hpushed]
  cases hp : s.producer with
  | idle | loaded pos | published pos =>
    rw [hp] at h
    exact h
  | claimed pos =>
    rw [hp] at h
    exact ⟨h.1, h.2.1, by have := h.2.2; omega⟩
  | written pos =>
    rw [hp] at h
    exact ⟨h.1, by have := h.2.1; omega, (hslot h.2.1).trans h.2.2⟩

/-- The producer moves its item into the slot of ticket `P`, which holds no value. -/
theorem Inv.write (h : s.Inv) (hk : k ≤ 63) (moved : T → T) {pos : UInt64}
    (hpc : s.producer = .claimed pos) :
    Inv { s.setStorage pos s.item with item := moved s.item, producer := .written pos } := by
  have hp := h.producer
  simp only [ProducerOk, hpc] at hp
  obtain ⟨rfl, hitem, hroom⟩ := hp
  have hle := h.fifo.length_le
  refine ⟨h.fifo, h.bounded, ?full, ?free, ?value, ⟨rfl, hroom, ?_⟩, h.consumer⟩
  case full => exact fun j hj hj' => (setStorage_sequence s _ _ _).trans (h.full j hj hj')
  case free => exact fun j hj hj' => (setStorage_sequence s _ _ _).trans (h.free j hj hj')
  case value =>
    intro j (hj : s.popped.length ≤ j) (hj' : j < s.pushed.length) htaken
    have hne : ticket k j ≠ slotOf k (UInt64.ofNat s.pushed.length) := by
      rw [slotOf_ofNat hk]
      exact ticket_ne hj (by omega) hle hroom (by omega)
    exact (h.value j hj hj' htaken).trans (by rw [setStorage_ne s hne])
  · have hself := setStorage_self s (UInt64.ofNat s.pushed.length) s.item
    rw [slotOf_ofNat hk] at hself
    exact hself.trans hitem

/-- The sequence store of the push: ticket `P` now has its value. -/
theorem Inv.publish (h : s.Inv) (hk : k ≤ 63) {pos : UInt64} (hpc : s.producer = .written pos) :
    Inv { s.setSequence pos (pos + 1) with
      producer := .published pos
      pushed := s.pushed ++ [s.offered] } := by
  have hp := h.producer
  simp only [ProducerOk, hpc] at hp
  obtain ⟨rfl, hroom, hvalue⟩ := hp
  have hle := h.fifo.length_le
  have hother : ∀ j, s.popped.length ≤ j → j < s.popped.length + 2 ^ k → j ≠ s.pushed.length →
      ticket k j ≠ slotOf k (UInt64.ofNat s.pushed.length) := by
    intro j hj hj' hne
    rw [slotOf_ofNat hk]
    exact ticket_ne hj hj' hle hroom hne
  have hlen : (s.pushed ++ [s.offered]).length = s.pushed.length + 1 := by simp
  refine ⟨h.fifo.trans (List.prefix_append _ _), ?bounded, ?full, ?free, ?value, ?producer, ?consumer⟩
  case bounded =>
    show (s.pushed ++ [s.offered]).length ≤ s.popped.length + 2 ^ k
    omega
  case full =>
    intro j (hj : s.popped.length ≤ j) (hj' : j < (s.pushed ++ [s.offered]).length)
    by_cases hlast : j = s.pushed.length
    -- the ticket that is being published
    · have hself := setSequence_self s (UInt64.ofNat s.pushed.length)
        (UInt64.ofNat s.pushed.length + 1)
      rw [slotOf_ofNat hk, ofNat_succ, ← hlast] at hself
      rw [← hlast, ofNat_succ]
      exact hself
    · have hne := hother j hj (by omega) hlast
      exact (congrArg Slot.sequence (setSequence_ne s hne)).trans (h.full j hj (by omega))
  case free =>
    intro j (hj : (s.pushed ++ [s.offered]).length ≤ j) (hj' : j < s.popped.length + 2 ^ k)
    have hne := hother j (by omega) hj' (by omega)
    exact (congrArg Slot.sequence (setSequence_ne s hne)).trans (h.free j (by omega) hj')
  case value =>
    intro j (hj : s.popped.length ≤ j) (hj' : j < (s.pushed ++ [s.offered]).length) htaken
    show (s.pushed ++ [s.offered])[j]? = some ((s.setSequence _ _).slots (ticket k j)).storage
    rw [setSequence_storage]
    by_cases hlast : j = s.pushed.length
    · rw [hlast, List.getElem?_concat_length, hvalue]
    · rw [List.getElem?_append_left (by omega)]
      exact h.value j hj (by omega) htaken
  case producer =>
    show UInt64.ofNat s.pushed.length + 1 = UInt64.ofNat (s.pushed ++ [s.offered]).length
    rw [ofNat_succ, hlen]
  case consumer =>
    exact h.consumer.frame rfl rfl rfl rfl rfl (List.prefix_append _ _)

/-- The consumer moves the oldest value out of its slot. -/
theorem Inv.take (h : s.Inv) (hk : k ≤ 63) (moved : T → T) {pos : UInt64}
    (hpc : s.consumer = .claimed pos) :
    Inv { s.setStorage pos (moved (s.slots (slotOf k pos)).storage) with
      out := (s.slots (slotOf k pos)).storage
      consumer := .taken pos } := by
  have hc := h.consumer
  simp only [ConsumerOk, hpc] at hc
  obtain ⟨rfl, hret, hsome⟩ := hc
  have hidle : ¬ s.Taken := not_taken hpc (by simp)
  have hfirst := h.value _ le_rfl hsome (fun ht => hidle ht.2)
  have hother : ∀ j, s.popped.length ≤ j → j < s.popped.length + 2 ^ k → j ≠ s.popped.length →
      ticket k j ≠ slotOf k (UInt64.ofNat s.popped.length) := by
    intro j hj hj' hne
    rw [slotOf_ofNat hk]
    exact ticket_ne hj hj' le_rfl (by omega) hne
  refine ⟨h.fifo, h.bounded, ?full, ?free, ?value, ?producer, ⟨rfl, hret, ?_⟩⟩
  case full => exact fun j hj hj' => (setStorage_sequence s _ _ _).trans (h.full j hj hj')
  case free => exact fun j hj hj' => (setStorage_sequence s _ _ _).trans (h.free j hj hj')
  case value =>
    intro j (hj : s.popped.length ≤ j) (hj' : j < s.pushed.length) htaken
    have hlater : j ≠ s.popped.length := fun heq => htaken ⟨heq, _, rfl⟩
    have hne := hother j hj (lt_of_lt_of_le hj' h.bounded) hlater
    exact (h.value j hj hj' (fun ht => hidle ht.2)).trans (by rw [setStorage_ne s hne])
  case producer =>
    refine h.producer.frame rfl rfl rfl rfl rfl le_rfl ?_
    intro hroom
    have hne := hother s.pushed.length hsome.le hroom (by omega)
    exact congrArg Slot.storage (setStorage_ne s hne)
  · rw [slotOf_ofNat hk]
    exact hfirst

/-- The sequence store of the pop: the slot of ticket `C` becomes the slot of ticket `C + Capacity`. -/
theorem Inv.release (h : s.Inv) (hk : k ≤ 63) {pos : UInt64} (hpc : s.consumer = .taken pos) :
    Inv { s.setSequence pos (pos + UInt64.ofNat (2 ^ k)) with
      consumer := .released pos
      popped := s.popped ++ [s.out] } := by
  have hc := h.consumer
  simp only [ConsumerOk, hpc] at hc
  obtain ⟨rfl, hret, hout⟩ := hc
  obtain ⟨hsome, hget⟩ := List.getElem?_eq_some_iff.mp hout
  have hlen : (s.popped ++ [s.out]).length = s.popped.length + 1 := by simp
  have hbounded := h.bounded
  have hother : ∀ j, s.popped.length < j → j < s.popped.length + 2 ^ k →
      ticket k j ≠ slotOf k (UInt64.ofNat s.popped.length) := by
    intro j hj hj'
    rw [slotOf_ofNat hk]
    exact ticket_ne hj.le hj' le_rfl (by omega) (by omega)
  refine ⟨?fifo, ?bounded, ?full, ?free, ?value, ?producer, ⟨?_, ?_⟩⟩
  case fifo =>
    have htake := List.prefix_iff_eq_take.mp h.fifo
    show s.popped ++ [s.out] <+: s.pushed
    rw [List.prefix_iff_eq_take, hlen, List.take_add_one, ← htake, hout]
    rfl
  case bounded =>
    show s.pushed.length ≤ (s.popped ++ [s.out]).length + 2 ^ k
    omega
  case full =>
    intro j (hj : (s.popped ++ [s.out]).length ≤ j) (hj' : j < s.pushed.length)
    have hne := hother j (by omega) (by omega)
    exact (congrArg Slot.sequence (setSequence_ne s hne)).trans (h.full j (by omega) hj')
  case free =>
    intro j (hj : s.pushed.length ≤ j) (hj' : j < (s.popped ++ [s.out]).length + 2 ^ k)
    by_cases hlap : j = s.popped.length + 2 ^ k
    -- the ticket that takes over the released slot
    · have hself := setSequence_self s (UInt64.ofNat s.popped.length)
        (UInt64.ofNat s.popped.length + UInt64.ofNat (2 ^ k))
      rw [slotOf_ofNat hk, ← ticket_lap, ← UInt64.ofNat_add, ← hlap] at hself
      rw [← UInt64.ofNat_add, ← hlap]
      exact hself
    · have hne := hother j (by omega) (by omega)
      exact (congrArg Slot.sequence (setSequence_ne s hne)).trans (h.free j hj (by omega))
  case value =>
    intro j (hj : (s.popped ++ [s.out]).length ≤ j) (hj' : j < s.pushed.length) _
    show s.pushed[j]? = some ((s.setSequence _ _).slots (ticket k j)).storage
    rw [setSequence_storage]
    exact h.value j (by omega) hj' (by omega)
  case producer =>
    exact h.producer.frame rfl rfl rfl rfl rfl (by rw [hlen]; omega)
      (fun _ => setSequence_storage s _ _ _)
  · show UInt64.ofNat s.popped.length + 1 = UInt64.ofNat (s.popped ++ [s.out]).length
    rw [ofNat_succ, hlen]
  · show s.returned ++ [s.out] = s.popped ++ [s.out]
    rw [hret]

theorem Inv.stepProducer (h : s.Inv) (hk1 : 1 ≤ k) (hk : k ≤ 63) (moved : T → T) (next : T) :
    (s.stepProducer moved next).Inv := by
  have hp := h.producer
  unfold SpscState.stepProducer
  cases hpc : s.producer with
  | idle =>
    simp only [ProducerOk, hpc] at hp
    exact ⟨h.fifo, h.bounded, h.full, h.free, h.value, ⟨hp, hp, rfl⟩, h.consumer⟩
  | loaded pos =>
    simp only [ProducerOk, hpc] at hp
    obtain ⟨hhead, rfl, hitem⟩ := hp
    dsimp only
    split
    case isTrue => exact ⟨h.fifo, h.bounded, h.full, h.free, h.value, hhead, h.consumer⟩
    case isFalse hfree =>
      rw [sub_ne_zero_iff, h.push_load hk1 hk] at hfree
      exact ⟨h.fifo, h.bounded, h.full, h.free, h.value,
        ⟨rfl, hitem, lt_of_le_of_ne h.bounded hfree⟩, h.consumer⟩
  | claimed pos => exact h.write hk moved hpc
  | written pos => exact h.publish hk hpc
  | published pos =>
    simp only [ProducerOk, hpc] at hp
    exact ⟨h.fifo, h.bounded, h.full, h.free, h.value, hp, h.consumer⟩

theorem Inv.stepConsumer (h : s.Inv) (hk : k ≤ 63) (moved : T → T) : (s.stepConsumer moved).Inv := by
  have hc := h.consumer
  -- outside `taken` every outstanding value is in its slot
  have hvalue : ¬ s.Taken → ∀ j, s.popped.length ≤ j → j < s.pushed.length →
      s.pushed[j]? = some (s.slots (ticket k j)).storage :=
    fun ht j hj hj' => h.value j hj hj' (fun hj'' => ht hj''.2)
  unfold SpscState.stepConsumer
  cases hpc : s.consumer with
  | idle =>
    simp only [ConsumerOk, hpc] at hc
    have hval := hvalue (not_taken hpc (by simp))
    exact ⟨h.fifo, h.bounded, h.full, h.free, fun j hj hj' _ => hval j hj hj', h.producer,
      ⟨hc.1, hc.1, hc.2⟩⟩
  | loaded pos =>
    simp only [ConsumerOk, hpc] at hc
    obtain ⟨htail, rfl, hret⟩ := hc
    have hval := hvalue (not_taken hpc (by simp))
    dsimp only
    split
    case isTrue =>
      exact ⟨h.fifo, h.bounded, h.full, h.free, fun j hj hj' _ => hval j hj hj', h.producer,
        ⟨htail, hret⟩⟩
    case isFalse hsome =>
      rw [sub_ne_zero_iff, h.pop_load hk] at hsome
      have hlt : s.popped.length < s.pushed.length :=
        lt_of_le_of_ne h.fifo.length_le (Ne.symm hsome)
      exact ⟨h.fifo, h.bounded, h.full, h.free, fun j hj hj' _ => hval j hj hj', h.producer,
        ⟨rfl, hret, hlt⟩⟩
  | claimed pos => exact h.take hk moved hpc
  | taken pos => exact h.release hk hpc
  | released pos =>
    simp only [ConsumerOk, hpc] at hc
    have hval := hvalue (not_taken hpc (by simp))
    exact ⟨h.fifo, h.bounded, h.full, h.free, fun j hj hj' _ => hval j hj hj', h.producer, hc⟩

theorem Inv.step (h : s.Inv) (hk1 : 1 ≤ k) (hk : k ≤ 63) (moved : T → T) (turn : Turn T) :
    (s.step moved turn).Inv := by
  cases turn with
  | producer next => exact h.stepProducer hk1 hk moved next
  | consumer => exact h.stepConsumer hk moved

/-- Values whose push has stored its sequence and whose pop has not. -/
def outstanding (s : SpscState T k) : Nat := s.pushed.length - s.popped.length

/-- The producer is between its successful sequence load and its sequence store, at `pos`. -/
def ProducerIn (s : SpscState T k) (pos : UInt64) : Prop :=
  s.producer = .claimed pos ∨ s.producer = .written pos

/-- The consumer is between its successful sequence load and its sequence store, at `pos`. -/
def ConsumerIn (s : SpscState T k) (pos : UInt64) : Prop :=
  s.consumer = .claimed pos ∨ s.consumer = .taken pos

/-- Everything but the two program counters and the argument of the push is the same. -/
def SameRing (s s' : SpscState T k) : Prop :=
  s'.head = s.head ∧ s'.tail = s.tail ∧ s'.slots = s.slots ∧ s'.out = s.out ∧
    s'.pushed = s.pushed ∧ s'.popped = s.popped ∧ s'.returned = s.returned

theorem Inv.producerIn (h : s.Inv) {pos : UInt64} (hp : s.ProducerIn pos) :
    pos = UInt64.ofNat s.pushed.length ∧ s.pushed.length < s.popped.length + 2 ^ k := by
  have hok := h.producer
  rcases hp with hpc | hpc
  · simp only [ProducerOk, hpc] at hok
    exact ⟨hok.1, hok.2.2⟩
  · simp only [ProducerOk, hpc] at hok
    exact ⟨hok.1, hok.2.1⟩

theorem Inv.consumerIn (h : s.Inv) {pos : UInt64} (hc : s.ConsumerIn pos) :
    pos = UInt64.ofNat s.popped.length ∧ s.popped.length < s.pushed.length := by
  have hok := h.consumer
  rcases hc with hpc | hpc
  · simp only [ConsumerOk, hpc] at hok
    exact ⟨hok.1, hok.2.2⟩
  · simp only [ConsumerOk, hpc] at hok
    exact ⟨hok.1, (List.getElem?_eq_some_iff.mp hok.2.2).1⟩

/-- The two threads never work on the same slot. -/
theorem Inv.exclusive (h : s.Inv) (hk : k ≤ 63) {pos pos' : UInt64} (hp : s.ProducerIn pos)
    (hc : s.ConsumerIn pos') : slotOf k pos ≠ slotOf k pos' := by
  obtain ⟨rfl, hroom⟩ := h.producerIn hp
  obtain ⟨rfl, hsome⟩ := h.consumerIn hc
  rw [slotOf_ofNat hk, slotOf_ofNat hk]
  exact ticket_ne hsome.le hroom le_rfl (by omega) (by omega)

/-- What has been returned is what has been released, but for a pop that has not returned yet. -/
theorem Inv.returned_of_pushed (h : s.Inv) : s.returned <+: s.pushed := by
  refine List.IsPrefix.trans ?_ h.fifo
  have hok := h.consumer
  unfold ConsumerOk at hok
  cases hpc : s.consumer with
  | idle =>
    rw [hpc] at hok
    exact hok.2 ▸ List.prefix_rfl
  | loaded pos =>
    rw [hpc] at hok
    exact hok.2.2 ▸ List.prefix_rfl
  | claimed pos | taken pos =>
    rw [hpc] at hok
    exact hok.2.1 ▸ List.prefix_rfl
  | released pos =>
    rw [hpc] at hok
    exact hok.2 ▸ List.prefix_append _ _

/-- The sequence load of a push decides it: it fails exactly when the ring is full. -/
theorem Inv.push_fails_iff (h : s.Inv) (hk1 : 1 ≤ k) (hk : k ≤ 63) (moved : T → T) (next : T)
    {pos : UInt64} (hpc : s.producer = .loaded pos) :
    (s.stepProducer moved next).producer = .idle ↔ s.outstanding = 2 ^ k := by
  have hok := h.producer
  simp only [ProducerOk, hpc] at hok
  obtain ⟨-, rfl, -⟩ := hok
  have hload := h.push_load hk1 hk
  have hle := h.fifo.length_le
  simp only [SpscState.stepProducer, hpc, sub_ne_zero_iff]
  unfold outstanding
  split
  case isTrue hne =>
    have hfull := hload.mp hne
    exact iff_of_true rfl (by omega)
  case isFalse heq =>
    have hroom := mt hload.mpr heq
    exact iff_of_false (by simp) (by omega)

theorem Inv.pop_fails_iff (h : s.Inv) (hk : k ≤ 63) (moved : T → T) {pos : UInt64}
    (hpc : s.consumer = .loaded pos) :
    (s.stepConsumer moved).consumer = .idle ↔ s.outstanding = 0 := by
  have hok := h.consumer
  simp only [ConsumerOk, hpc] at hok
  obtain ⟨-, rfl, -⟩ := hok
  have hload := h.pop_load hk
  have hle := h.fifo.length_le
  simp only [SpscState.stepConsumer, hpc, sub_ne_zero_iff]
  unfold outstanding
  split
  case isTrue hne =>
    have hnone := hload.mp hne
    exact iff_of_true rfl (by omega)
  case isFalse heq =>
    have hsome := mt hload.mpr heq
    exact iff_of_false (by simp) (by omega)

/-- Both steps of a push that fails leave the ring alone, and its argument has not been moved from. -/
theorem Inv.failed_push (h : s.Inv) (moved : T → T) (next : T) {pos : UInt64}
    (hpc : s.producer = .loaded pos) (hfail : (s.stepProducer moved next).producer = .idle) :
    s.SameRing (s.stepProducer moved next) ∧ (s.stepProducer moved next).item = s.offered := by
  have hok := h.producer
  simp only [ProducerOk, hpc] at hok
  simp only [SpscState.stepProducer, hpc] at hfail ⊢
  split
  case isTrue => exact ⟨⟨rfl, rfl, rfl, rfl, rfl, rfl, rfl⟩, hok.2.2⟩
  case isFalse heq =>
    rw [if_neg heq] at hfail
    exact absurd hfail (by simp)

theorem failed_pop (moved : T → T) {pos : UInt64} (hpc : s.consumer = .loaded pos)
    (hfail : (s.stepConsumer moved).consumer = .idle) : s.SameRing (s.stepConsumer moved) := by
  simp only [SpscState.stepConsumer, hpc] at hfail ⊢
  split
  case isTrue => exact ⟨rfl, rfl, rfl, rfl, rfl, rfl, rfl⟩
  case isFalse heq =>
    rw [if_neg heq] at hfail
    exact absurd hfail (by simp)

theorem start_push (moved : T → T) (next : T) (hpc : s.producer = .idle) :
    s.SameRing (s.stepProducer moved next) := by
  simp only [SpscState.stepProducer, hpc]
  exact ⟨rfl, rfl, rfl, rfl, rfl, rfl, rfl⟩

theorem start_pop (moved : T → T) (hpc : s.consumer = .idle) :
    s.SameRing (s.stepConsumer moved) := by
  simp only [SpscState.stepConsumer, hpc]
  exact ⟨rfl, rfl, rfl, rfl, rfl, rfl, rfl⟩

/-! ## Calls that return -/

/-- What the push returns, if the next step is its last. -/
def pushReturns (moved : T → T) (next : T) (s : SpscState T k) : Option Bool :=
  match s.producer, (s.stepProducer moved next).producer with
  | .published _, _ => some true
  | .loaded _, .idle => some false
  | _, _ => none

def popReturns (moved : T → T) (s : SpscState T k) : Option Bool :=
  match s.consumer, (s.stepConsumer moved).consumer with
  | .released _, _ => some true
  | .loaded _, .idle => some false
  | _, _ => none

theorem pushReturns_true {moved : T → T} {next : T} :
    s.pushReturns moved next = some true ↔ ∃ pos, s.producer = .published pos := by
  unfold pushReturns
  cases s.producer with
  | published pos => exact iff_of_true rfl ⟨pos, rfl⟩
  | loaded pos =>
    refine iff_of_false ?_ (by simp)
    split <;> simp_all
  | idle | claimed pos | written pos => exact iff_of_false (by simp) (by simp)

/-- A push returns false exactly from the load that finds the ring full. -/
theorem Inv.pushReturns_false (h : s.Inv) (hk1 : 1 ≤ k) (hk : k ≤ 63) {moved : T → T} {next : T} :
    s.pushReturns moved next = some false ↔
      (∃ pos, s.producer = .loaded pos) ∧ s.outstanding = 2 ^ k := by
  cases hpc : s.producer with
  | loaded pos =>
    rw [← h.push_fails_iff hk1 hk moved next hpc, and_iff_right ⟨pos, rfl⟩]
    simp only [pushReturns, hpc]
    constructor
    · intro hret
      split at hret <;> simp_all
    · intro hidle
      rw [hidle]
  | idle | claimed pos | written pos | published pos =>
    refine iff_of_false ?_ (by simp)
    simp [pushReturns, hpc]

/-- The value of a push that has stored its sequence and has not returned. -/
def inFlight (s : SpscState T k) : List T :=
  match s.producer with
  | .published _ => [s.offered]
  | _ => []

/-- A push keeps the consumer's part of the state. -/
theorem stepProducer_frame (moved : T → T) (next : T) (s : SpscState T k) :
    let s' := s.stepProducer moved next
    s'.consumer = s.consumer ∧ s'.tail = s.tail ∧ s'.out = s.out ∧ s'.popped = s.popped ∧
      s'.returned = s.returned := by
  unfold stepProducer
  cases s.producer with
  | loaded pos =>
    dsimp only
    split <;> exact ⟨rfl, rfl, rfl, rfl, rfl⟩
  | idle | claimed pos | written pos | published pos => exact ⟨rfl, rfl, rfl, rfl, rfl⟩

theorem stepConsumer_frame (moved : T → T) (s : SpscState T k) :
    let s' := s.stepConsumer moved
    s'.producer = s.producer ∧ s'.head = s.head ∧ s'.offered = s.offered ∧ s'.pushed = s.pushed := by
  unfold stepConsumer
  cases s.consumer with
  | loaded pos =>
    dsimp only
    split <;> exact ⟨rfl, rfl, rfl, rfl⟩
  | idle | claimed pos | taken pos | released pos => exact ⟨rfl, rfl, rfl, rfl⟩

/-- **What a step of a push does**, seen from the caller. -/
theorem push_effect (moved : T → T) (next : T) {accepted : List T}
    (haccepted : s.pushed = accepted ++ s.inFlight)
    (hoffered : s.producer ≠ .idle → s.offered = next) :
    let s' := s.stepProducer moved next
    match s.pushReturns moved next with
    | none => s'.producer ≠ .idle ∧ s'.offered = next ∧ s'.pushed = accepted ++ s'.inFlight
    | some true => s'.producer = .idle ∧ s'.pushed = accepted ++ [next] ++ s'.inFlight
    | some false => s'.producer = .idle ∧ s'.pushed = accepted ++ s'.inFlight := by
  unfold inFlight at haccepted
  cases hpc : s.producer with
  | idle =>
    simp only [hpc, List.append_nil] at haccepted
    simp [pushReturns, stepProducer, inFlight, hpc, haccepted]
  | loaded pos =>
    simp only [hpc, List.append_nil] at haccepted
    rw [hpc] at hoffered
    have hnext := hoffered (by simp)
    by_cases hfree : (s.slots (slotOf k pos)).sequence - pos ≠ 0
    · simp [pushReturns, stepProducer, inFlight, hpc, hfree, haccepted]
    · simp [pushReturns, stepProducer, inFlight, hpc, hfree, haccepted, hnext]
  | claimed pos | written pos =>
    simp only [hpc, List.append_nil] at haccepted
    rw [hpc] at hoffered
    have hnext := hoffered (by simp)
    simp [pushReturns, stepProducer, inFlight, hpc, haccepted, hnext, setStorage, setSequence]
  | published pos =>
    simp only [hpc] at haccepted
    rw [hpc] at hoffered
    have hnext := hoffered (by simp)
    simp [pushReturns, stepProducer, inFlight, hpc, haccepted, hnext]

/-- **What a step of a pop does**, seen from the caller. -/
theorem pop_effect (moved : T → T) (s : SpscState T k) :
    let s' := s.stepConsumer moved
    match s.popReturns moved with
    | none => s'.returned = s.returned
    | some true => s'.consumer = .idle ∧ s'.returned = s.returned ++ [s'.out]
    | some false => s'.consumer = .idle ∧ s'.returned = s.returned := by
  cases hpc : s.consumer with
  | loaded pos =>
    by_cases hsome : (s.slots (slotOf k pos)).sequence - (pos + 1) ≠ 0
    · simp [popReturns, stepConsumer, hpc, hsome]
    · simp [popReturns, stepConsumer, hpc, hsome]
  | idle | claimed pos | taken pos | released pos =>
    simp [popReturns, stepConsumer, hpc, setStorage, setSequence]

/-- `head_` is stored last, so until then it is the position that the push has loaded. -/
def HeadOk (s : SpscState T k) : Prop :=
  match s.producer with
  | .idle => True
  | .loaded pos | .claimed pos | .written pos | .published pos => s.head = pos

theorem HeadOk.stepProducer (h : s.HeadOk) (moved : T → T) (next : T) :
    (s.stepProducer moved next).HeadOk := by
  unfold HeadOk at h
  unfold SpscState.stepProducer
  cases hpc : s.producer with
  | idle => exact rfl
  | loaded pos =>
    rw [hpc] at h
    dsimp only
    split
    case isTrue => exact True.intro
    case isFalse => exact h
  | claimed pos | written pos =>
    rw [hpc] at h
    exact h
  | published pos => exact True.intro

/-- `head_` counts the pushes that have returned. -/
theorem Inv.head_eq (h : s.Inv) (hh : s.HeadOk) {returned : List T}
    (hpushed : s.pushed = returned ++ s.inFlight) : s.head = UInt64.ofNat returned.length := by
  have hp := h.producer
  unfold HeadOk at hh
  unfold ProducerOk at hp
  unfold inFlight at hpushed
  cases hpc : s.producer with
  | idle | loaded pos =>
    simp only [hpc, List.append_nil] at hp hpushed
    rw [← hpushed]
    first | exact hp | exact hp.1
  | claimed pos | written pos =>
    simp only [hpc, List.append_nil] at hp hpushed hh
    rw [hh, hp.1, hpushed]
  | published pos =>
    simp only [hpc] at hp hpushed hh
    rw [hpushed, List.length_append, List.length_singleton, ← ofNat_succ] at hp
    rw [hh]
    exact UInt64.add_left_inj 1 |>.mp hp

/-- The test `empty()` makes, between two pops: nothing is left of what the pushes have returned. -/
theorem Inv.empty_iff (h : s.Inv) (hh : s.HeadOk) (hk : k ≤ 63) (hidle : s.consumer = .idle)
    {accepted : List T} (hpushed : s.pushed = accepted ++ s.inFlight) :
    s.head = s.tail ↔ accepted = s.returned := by
  have hc := h.consumer
  simp only [ConsumerOk, hidle] at hc
  have hcap : 2 ^ k ≤ 2 ^ 63 := Nat.pow_le_pow_right (by decide) hk
  rw [h.head_eq hh hpushed, hc.1, hc.2]
  constructor
  · intro hword
    have hlen : accepted.length = s.popped.length := by
      have hval := congrArg UInt64.toNat hword
      rw [UInt64.toNat_ofNat', UInt64.toNat_ofNat'] at hval
      have hle := h.fifo.length_le
      have hbounded := h.bounded
      have hflight : s.inFlight.length ≤ 1 := by
        unfold inFlight
        split <;> simp
      rw [hpushed, List.length_append] at hle hbounded
      omega
    have hpre : accepted <+: s.pushed := by
      rw [hpushed]
      exact List.prefix_append _ _
    exact (List.prefix_of_prefix_length_le hpre h.fifo hlen.le).eq_of_length hlen
  · intro heq
    rw [heq]

/-! ## Calls that run alone -/

/-- A push with room in the ring takes five steps. -/
theorem Inv.push_alone (h : s.Inv) (hk1 : 1 ≤ k) (hk : k ≤ 63) (moved : T → T) (next : T)
    (hidle : s.producer = .idle) (hroom : s.outstanding ≠ 2 ^ k) :
    (∀ i, i < 4 → ((SpscState.stepProducer moved next)^[i] s).pushReturns moved next = none) ∧
      ((SpscState.stepProducer moved next)^[4] s).pushReturns moved next = some true := by
  have hp := h.producer
  simp only [ProducerOk, hidle] at hp
  have hfree : (s.slots (slotOf k s.head)).sequence - s.head = 0 := by
    have hload := (h.push_load hk1 hk).not
    rw [← hp, ← sub_ne_zero_iff, not_not] at hload
    refine hload.mpr fun hfull => hroom ?_
    unfold outstanding
    rw [hfull, Nat.add_sub_cancel_left]
  refine ⟨?_, ?_⟩
  · intro i hi
    obtain rfl | rfl | rfl | rfl : i = 0 ∨ i = 1 ∨ i = 2 ∨ i = 3 := by omega
    all_goals simp [pushReturns, SpscState.stepProducer, hidle, hfree]
  · simp [pushReturns, SpscState.stepProducer, hidle, hfree]

/-- A push into a full ring takes two. -/
theorem Inv.push_full (h : s.Inv) (hk1 : 1 ≤ k) (hk : k ≤ 63) (moved : T → T) (next : T)
    (hidle : s.producer = .idle) (hfull : s.outstanding = 2 ^ k) :
    s.pushReturns moved next = none ∧
      (s.stepProducer moved next).pushReturns moved next = some false := by
  have hsame : (s.stepProducer moved next).outstanding = s.outstanding := by
    simp only [outstanding, SpscState.stepProducer, hidle]
  refine ⟨by simp [pushReturns, SpscState.stepProducer, hidle], ?_⟩
  rw [(h.stepProducer hk1 hk moved next).pushReturns_false hk1 hk, hsame]
  exact ⟨⟨s.head, by simp [SpscState.stepProducer, hidle]⟩, hfull⟩

/-- A pop takes five steps if there is something in the ring. -/
theorem Inv.pop_alone (h : s.Inv) (hk : k ≤ 63) (moved : T → T) (hidle : s.consumer = .idle)
    (hsome : s.outstanding ≠ 0) :
    (∀ i, i < 4 → ((SpscState.stepConsumer moved)^[i] s).popReturns moved = none) ∧
      ((SpscState.stepConsumer moved)^[4] s).popReturns moved = some true := by
  have hc := h.consumer
  simp only [ConsumerOk, hidle] at hc
  have hfull : (s.slots (slotOf k s.tail)).sequence - (s.tail + 1) = 0 := by
    have hload := (h.pop_load hk).not
    rw [← hc.1, ← sub_ne_zero_iff, not_not] at hload
    refine hload.mpr fun hnone => hsome ?_
    unfold outstanding
    omega
  refine ⟨?_, ?_⟩
  · intro i hi
    obtain rfl | rfl | rfl | rfl : i = 0 ∨ i = 1 ∨ i = 2 ∨ i = 3 := by omega
    all_goals simp [popReturns, SpscState.stepConsumer, hidle, hfull]
  · simp [popReturns, SpscState.stepConsumer, hidle, hfull]

theorem idle_of_pushReturns_false {moved : T → T} {next : T}
    (h : s.pushReturns moved next = some false) : (s.stepProducer moved next).producer = .idle := by
  unfold pushReturns at h
  split at h
  · cases h
  · assumption
  · cases h

theorem returned_iterate_stepProducer (moved : T → T) (next : T) (n : Nat) (s : SpscState T k) :
    ((SpscState.stepProducer moved next)^[n] s).returned = s.returned := by
  induction n with
  | zero => rfl
  | succ n ih => rw [Function.iterate_succ_apply', (stepProducer_frame moved next _).2.2.2.2, ih]

theorem producer_iterate_stepConsumer (moved : T → T) (n : Nat) (s : SpscState T k) :
    ((SpscState.stepConsumer moved)^[n] s).producer = s.producer := by
  induction n with
  | zero => rfl
  | succ n ih => rw [Function.iterate_succ_apply', (stepConsumer_frame moved _).1, ih]

/-- A pop that has gone on for `n` steps has not returned anything yet. -/
theorem returned_iterate_stepConsumer (moved : T → T) {n : Nat} {s : SpscState T k}
    (hcalls : ∀ i, i < n → ((SpscState.stepConsumer moved)^[i] s).popReturns moved = none) :
    ((SpscState.stepConsumer moved)^[n] s).returned = s.returned := by
  induction n with
  | zero => rfl
  | succ n ih =>
    have heffect := pop_effect moved ((SpscState.stepConsumer moved)^[n] s)
    rw [hcalls n (Nat.lt_succ_self n)] at heffect
    rw [Function.iterate_succ_apply']
    exact heffect.trans (ih fun i hi => hcalls i (Nat.lt_succ_of_lt hi))

end SpscState

/-! ## Every interleaving -/

theorem runSpsc_inv (hk1 : 1 ≤ k) (hk : k ≤ 63) (moved : T → T) (blank : T) (turns : List (Turn T)) :
    (runSpsc k moved blank turns).Inv :=
  List.foldlRecOn turns _ (SpscState.Inv.init T k blank) fun _ h turn _ => h.step hk1 hk moved turn

/-- **A bounded FIFO under every interleaving.**  In every state of every run of the two threads, with
`2 ≤ 2^k ≤ 2^63` slots: what the pops have returned is a prefix of what the pushes have put in; at most
`2^k` values are outstanding; the sequence load of a push fails exactly when `2^k` values are
outstanding, that of a pop exactly when none is; the steps of a call that fails (the one that starts it
and the one that fails) change nothing, and the argument of a failed push keeps its value; and the
threads are never between their sequence load and their sequence store on the same slot. -/
theorem spsc_is_bounded_fifo (hk1 : 1 ≤ k) (hk : k ≤ 63) (moved : T → T) (blank : T)
    (turns : List (Turn T)) :
    let s := runSpsc k moved blank turns
    s.returned <+: s.pushed ∧ s.popped <+: s.pushed ∧ s.outstanding ≤ 2 ^ k ∧
    (∀ pos next, s.producer = .loaded pos →
      ((s.stepProducer moved next).producer = .idle ↔ s.outstanding = 2 ^ k)) ∧
    (∀ pos, s.consumer = .loaded pos →
      ((s.stepConsumer moved).consumer = .idle ↔ s.outstanding = 0)) ∧
    (∀ next, s.producer = .idle → s.SameRing (s.stepProducer moved next)) ∧
    (∀ pos next, s.producer = .loaded pos → (s.stepProducer moved next).producer = .idle →
      s.SameRing (s.stepProducer moved next) ∧ (s.stepProducer moved next).item = s.offered) ∧
    (s.consumer = .idle → s.SameRing (s.stepConsumer moved)) ∧
    (∀ pos, s.consumer = .loaded pos → (s.stepConsumer moved).consumer = .idle →
      s.SameRing (s.stepConsumer moved)) ∧
    (∀ pos pos', s.ProducerIn pos → s.ConsumerIn pos' → slotOf k pos ≠ slotOf k pos') := by
  intro s
  have h : s.Inv := runSpsc_inv hk1 hk moved blank turns
  refine ⟨h.returned_of_pushed, h.fifo, Nat.sub_le_iff_le_add'.mpr h.bounded, ?_, ?_, ?_, ?_, ?_, ?_,
    ?_⟩
  · exact fun _ next hpc => h.push_fails_iff hk1 hk moved next hpc
  · exact fun _ hpc => h.pop_fails_iff hk moved hpc
  · exact fun next hpc => SpscState.start_push moved next hpc
  · exact fun _ next hpc hfail => h.failed_push moved next hpc hfail
  · exact fun hpc => SpscState.start_pop moved hpc
  · exact fun _ hpc hfail => SpscState.failed_pop moved hpc hfail
  · exact fun _ _ hp hc => h.exclusive hk hp hc

/-- Two slots and two pushes: the third push has loaded `head_` and its sequence load fails. -/
theorem spsc_is_bounded_fifo_full :
    let turns := List.replicate 5 (Turn.producer 7) ++ List.replicate 6 (Turn.producer 8)
    let s := runSpsc 1 (fun _ => 0) 0 turns
    s.pushed = [7, 8] ∧ (s.stepProducer (fun _ => 0) 9).producer = .idle := by
  intro turns s
  have hfifo := spsc_is_bounded_fifo (by decide : 1 ≤ 1) (by decide) (fun _ => 0) 0 turns
  exact ⟨rfl, (hfifo.2.2.2.1 2 9 rfl).mpr rfl⟩

end MarketDataPipeline.Queue
