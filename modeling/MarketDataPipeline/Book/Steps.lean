/-
# MarketDataPipeline.Book.Steps — what a message does to the book.

The abstract book is a finite map from order ids to orders, together with the last trade of every
symbol (`BookSpec`).  `Holds S b` says that the order pool and the last trades of `b` are those of `S`;
it is kept by every message without any assumption.

The four `*_cases` lemmas say everything a handler can do in terms of the abstract book: which branch it
takes, what it does to the levels, between which two pictures of the top of book it compares.  The
results about levels and about ticks are read off them.
-/
import MarketDataPipeline.Book.Builder

namespace MarketDataPipeline.Book

open MarketDataPipeline.Wire

/-! ## The abstract book -/

/-- An order that the book admits. -/
def ValidOrder (o : OrderFields) : Prop :=
  o.symbolId.toNat < 32 ∧ 1 ≤ o.price.toNat ∧ o.price.toNat ≤ 4096 ∧ 0 < o.qty.toNat

instance (o : OrderFields) : Decidable (ValidOrder o) := inferInstanceAs (Decidable (_ ∧ _ ∧ _ ∧ _))

/-- The live orders, and for every symbol the price and quantity of its last trade. -/
structure BookSpec where
  orders : OrderMap := ∅
  last : UInt32 → UInt32 × UInt32 := fun _ => (0, 0)

def BookSpec.step (S : BookSpec) : BookMsg → BookSpec
  | .add m =>
    if ValidOrder ⟨m.symbolId, m.side, m.price, m.qty⟩ ∧ S.orders.keys.card < 65536 then
      { S with orders := S.orders.insert m.orderId ⟨m.symbolId, m.side, m.price, m.qty⟩ }
    else S
  | .modify m =>
    if ValidOrder ⟨m.symbolId, m.side, m.price, m.qty⟩ ∧ m.orderId ∈ S.orders then
      { S with orders := S.orders.insert m.orderId ⟨m.symbolId, m.side, m.price, m.qty⟩ }
    else S
  | .delete m => { S with orders := S.orders.erase m.orderId }
  | .trade m =>
    if ValidOrder ⟨m.symbolId, m.side, m.price, m.qty⟩ then
      { S with last := Function.update S.last m.symbolId (m.price, m.qty) }
    else S

/-- A message that the abstract book acts on. -/
def BookSpec.Admits (S : BookSpec) : BookMsg → Prop
  | .add m => ValidOrder ⟨m.symbolId, m.side, m.price, m.qty⟩ ∧ S.orders.keys.card < 65536
  | .modify m => ValidOrder ⟨m.symbolId, m.side, m.price, m.qty⟩ ∧ m.orderId ∈ S.orders
  | .delete m => m.orderId ∈ S.orders
  | .trade m => ValidOrder ⟨m.symbolId, m.side, m.price, m.qty⟩

def specBook (msgs : List BookMsg) : BookSpec := msgs.foldl BookSpec.step {}

@[simp] theorem specBook_snoc (pre : List BookMsg) (m : BookMsg) :
    specBook (pre ++ [m]) = (specBook pre).step m := by
  unfold specBook
  rw [List.foldl_append]
  rfl

/-- The live ids after a message that the book acts on. -/
theorem BookSpec.mem_step {S : BookSpec} {m : BookMsg} (h : S.Admits m) (orderId : UInt64) :
    orderId ∈ (S.step m).orders ↔
      match m with
      | .add a => orderId = a.orderId ∨ orderId ∈ S.orders
      | .modify _ | .trade _ => orderId ∈ S.orders
      | .delete d => orderId ≠ d.orderId ∧ orderId ∈ S.orders := by
  cases m with
  | add m =>
    simp only [BookSpec.step]
    rw [if_pos ⟨h.1, h.2⟩]
    exact Finmap.mem_insert
  | modify m =>
    simp only [BookSpec.step]
    rw [if_pos ⟨h.1, h.2⟩, Finmap.mem_insert]
    refine ⟨?_, Or.inr⟩
    rintro (rfl | hmem)
    · exact h.2
    · exact hmem
  | delete m => exact Finmap.mem_erase
  | trade m =>
    simp only [BookSpec.step]
    split_ifs <;> exact Iff.rfl

/-! ## The pool and the last trades -/

namespace BookBuilder

/-- **The pool and the last trades are those of the abstract book.** -/
structure Holds (S : BookSpec) (b : BookBuilder) : Prop where
  pool : b.toOrderPool.Refines orderSlot S.orders
  valid : ∀ orderId o, S.orders.lookup orderId = some o → ValidOrder o
  last : ∀ symbolId : UInt32, symbolId.toNat < 32 →
    (b.book symbolId).lastPrice = (S.last symbolId).1 ∧
      (b.book symbolId).lastQty = (S.last symbolId).2

variable {b : BookBuilder} {M : OrderMap} {S : BookSpec}

theorem acceptable_iff {symbolId price qty : UInt32} {side : Side} :
    acceptable symbolId price qty = true ↔ ValidOrder ⟨symbolId, side, price, qty⟩ := by
  have hqty : qty ≠ 0 ↔ 0 < qty.toNat := by
    rw [Nat.pos_iff_ne_zero, ← UInt32.toNat_inj.ne]
    rfl
  unfold acceptable validPrice ValidOrder
  simp only [Bool.not_or, Bool.not_not, Bool.and_eq_true, Bool.not_eq_true', decide_eq_false_iff_not,
    decide_eq_true_eq, beq_eq_false_iff_ne, UInt32.le_iff_toNat_le, Nat.not_le, hqty, and_assoc]
  rfl

theorem holds_init : Holds {} {} where
  pool := OrderPool.refines_empty orderSlot
  valid := by
    intro orderId o h
    rw [Finmap.lookup_empty] at h
    cases h
  last := fun _ _ => ⟨rfl, rfl⟩

/-- The book without the level entry of an order, if there is one. -/
def withdraw (b : BookBuilder) : Option OrderFields → BookBuilder
  | none => b
  | some o => b.removeLevelAt o.symbolId o.side o.price o.qty

/-- The book with the level entry of a new order and a new pool. -/
def deposit (b : BookBuilder) (o : OrderFields) (pool : OrderPool) : BookBuilder :=
  { b.addLevelAt o.symbolId o.side o.price o.qty with toOrderPool := pool }

/-! ## Adding -/

/-- `rec->state = 1` changes nothing: the record is live already. -/
theorem markLive_eq {idx : Fin kOrderPool} (h : (b.orders idx).state = 1) : b.markLive idx = b := by
  have hsame : ({ b.orders idx with state := 1 } : OrderRecord) = b.orders idx := by
    rw [← h]
  unfold markLive
  dsimp only
  rw [hsame, Function.update_eq_self]

/-- A record that has been written is live. -/
theorem writeFields_state {p : OrderPool} (h : p.Refines orderSlot M) {orderId : UInt64}
    {idx : Fin kOrderPool} (hfind : p.findOrder orderSlot orderId = some idx) (o : OrderFields) :
    ((p.writeFields idx o).orders idx).state = 1 := by
  obtain ⟨o₀, -, hrec⟩ := h.find_some hfind
  unfold OrderPool.writeFields
  dsimp only
  rw [Function.update_self, hrec]
  rfl

theorem dropReplaced_new {idx : Fin kOrderPool} {orderId : UInt64}
    (hrec : b.orders idx = recordOf orderId {}) : b.dropReplaced idx orderId = b := by
  unfold dropReplaced
  rw [hrec]
  exact if_neg fun hall => absurd hall.2.1 (show ¬ (0 : UInt32) < 0 by decide)

theorem dropReplaced_live {idx : Fin kOrderPool} {orderId : UInt64} {o : OrderFields}
    (hrec : b.orders idx = recordOf orderId o) (ho : ValidOrder o) :
    b.dropReplaced idx orderId = b.withdraw (some o) := by
  unfold dropReplaced
  rw [hrec]
  refine if_pos ⟨rfl, ?_, rfl⟩
  rw [UInt32.lt_iff_toNat_lt]
  exact ho.2.2.2

/-- `on_add` with a new id: the first free slot gets the record, and its level the entry. -/
theorem onAdd_new (h : Holds S b) {m : AddOrder}
    (ho : ValidOrder ⟨m.symbolId, m.side, m.price, m.qty⟩)
    (hl : S.orders.lookup m.orderId = none) (hroom : S.orders.keys.card < 65536) :
    ∃ idx, liveKey (b.orders idx) = none ∧
      let o : OrderFields := ⟨m.symbolId, m.side, m.price, m.qty⟩
      let pool : OrderPool :=
        ⟨Function.update b.orders idx (recordOf m.orderId o), b.liveCount + 1⟩
      pool.Refines orderSlot (S.orders.insert m.orderId o) ∧
      b.onAdd m = (b.deposit o pool, (b.deposit o pool).tickIfChanged (b.top m.symbolId)
        ((b.deposit o pool).top m.symbolId) m.symbolId m.hdr .addOrder) := by
  obtain ⟨idx, fresh, hfree, rfl, heq, hfind, hfresh⟩ := h.pool.insert_new hl hroom
  obtain ⟨o', ho', hrec⟩ := hfresh.find_some hfind
  rw [Finmap.lookup_insert] at ho'
  obtain rfl := Option.some.inj ho'
  have hwritten : OrderPool.writeFields
      ⟨Function.update b.orders idx (recordOf m.orderId {}), b.liveCount + 1⟩ idx
        ⟨m.symbolId, m.side, m.price, m.qty⟩
      = ⟨Function.update b.orders idx (recordOf m.orderId ⟨m.symbolId, m.side, m.price, m.qty⟩),
          b.liveCount + 1⟩ := by
    unfold OrderPool.writeFields
    dsimp only
    rw [Function.update_self, Function.update_idem]
    rfl
  have hpool := hfresh.write hfind ⟨m.symbolId, m.side, m.price, m.qty⟩
  rw [Finmap.insert_insert, hwritten] at hpool
  refine ⟨idx, hfree, hpool, ?_⟩
  unfold onAdd
  rw [if_pos (acceptable_iff.mpr ho), heq]
  dsimp only
  -- the record is fresh, so there is nothing to remove from a level
  rw [dropReplaced_new hrec, markLive_eq (writeFields_state hfresh hfind _)]
  dsimp only
  rw [hwritten]
  rfl

/-- **What `on_add` can do**: refuse, or replace the id's level entry by the new one. -/
theorem onAdd_cases (h : Holds S b) (m : AddOrder) :
    let o : OrderFields := ⟨m.symbolId, m.side, m.price, m.qty⟩
    (¬ (ValidOrder o ∧ S.orders.keys.card < 65536) ∧ b.onAdd m = (b, none)) ∨
    (ValidOrder o ∧ S.orders.keys.card < 65536 ∧ ∃ pool : OrderPool,
      pool.Refines orderSlot (S.orders.insert m.orderId o) ∧
      b.onAdd m =
        let b₁ := b.withdraw (S.orders.lookup m.orderId)
        let b' := b₁.deposit o pool
        (b', b'.tickIfChanged (b₁.top m.symbolId) (b'.top m.symbolId) m.symbolId m.hdr
          .addOrder)) := by
  intro o
  unfold onAdd
  by_cases hacc : acceptable m.symbolId m.price m.qty = true
  · rw [if_pos hacc]
    have ho : ValidOrder o := acceptable_iff.mp hacc
    rcases Nat.lt_or_ge S.orders.keys.card 65536 with hroom | hfull
    · refine Or.inr ⟨ho, hroom, ?_⟩
      cases hl : S.orders.lookup m.orderId with
      | none =>
        obtain ⟨idx, -, hpool, heq⟩ := onAdd_new h ho hl hroom
        unfold onAdd at heq
        rw [if_pos hacc] at heq
        exact ⟨_, hpool, heq⟩
      | some o₀ =>
        obtain ⟨idx, heq, hfind⟩ := h.pool.insert_live hl hroom
        obtain ⟨o', ho', hrec⟩ := h.pool.find_some hfind
        rw [hl] at ho'
        obtain rfl := Option.some.inj ho'
        refine ⟨b.writeFields idx o, h.pool.write hfind o, ?_⟩
        rw [heq]
        dsimp only
        rw [dropReplaced_live hrec (h.valid _ _ hl),
          markLive_eq (writeFields_state h.pool hfind o)]
        rfl
    · refine Or.inl ⟨fun hall => Nat.not_lt.mpr hfull hall.2, ?_⟩
      rw [h.pool.insert_full m.orderId hfull]
  · refine Or.inl ⟨fun hall => hacc (acceptable_iff.mpr hall.1), ?_⟩
    rw [if_neg hacc]

/-! ## Modifying, deleting, trading -/

theorem onModify_cases (h : Holds S b) (m : ModifyOrder) :
    let o : OrderFields := ⟨m.symbolId, m.side, m.price, m.qty⟩
    (¬ (ValidOrder o ∧ m.orderId ∈ S.orders) ∧ b.onModify m = (b, none)) ∨
    (ValidOrder o ∧ ∃ o₀, S.orders.lookup m.orderId = some o₀ ∧ ∃ pool : OrderPool,
      pool.Refines orderSlot (S.orders.insert m.orderId o) ∧
      b.onModify m =
        let b' := (b.withdraw (some o₀)).deposit o pool
        (b', b'.tickIfChanged (b.top o₀.symbolId) (b'.top m.symbolId) m.symbolId m.hdr
          .modifyOrder)) := by
  intro o
  unfold onModify
  cases hfind : b.findOrder orderSlot m.orderId with
  | none =>
    have hl := h.pool.find_none.mp hfind
    exact Or.inl ⟨fun hall => Finmap.lookup_eq_none.mp hl hall.2, rfl⟩
  | some idx =>
    obtain ⟨o₀, hl, hrec⟩ := h.pool.find_some hfind
    dsimp only
    by_cases hacc : acceptable m.symbolId m.price m.qty = true
    · refine Or.inr ⟨acceptable_iff.mp hacc, o₀, hl, b.writeFields idx o,
        h.pool.write hfind o, ?_⟩
      rw [if_pos hacc, hrec]
      rfl
    · refine Or.inl ⟨fun hall => hacc (acceptable_iff.mpr hall.1), ?_⟩
      rw [if_neg hacc]

theorem onDelete_cases (h : Holds S b) (m : DeleteOrder) :
    (S.orders.lookup m.orderId = none ∧ b.onDelete m = (b, none)) ∨
    (∃ o₀, S.orders.lookup m.orderId = some o₀ ∧ ∃ pool : OrderPool,
      pool.Refines orderSlot (S.orders.erase m.orderId) ∧
      b.onDelete m =
        let b' := { b.withdraw (some o₀) with toOrderPool := pool }
        (b', b'.tickIfChanged (b.top o₀.symbolId) (b'.top o₀.symbolId) o₀.symbolId m.hdr
          .deleteOrder)) := by
  unfold onDelete
  cases hfind : b.findOrder orderSlot m.orderId with
  | none => exact Or.inl ⟨h.pool.find_none.mp hfind, rfl⟩
  | some idx =>
    obtain ⟨o₀, hl, hrec⟩ := h.pool.find_some hfind
    refine Or.inr ⟨o₀, hl, b.eraseOrder orderSlot m.orderId, h.pool.erase m.orderId, ?_⟩
    dsimp only
    rw [hrec]
    rfl

theorem onTrade_cases (b : BookBuilder) (m : Trade) :
    let o : OrderFields := ⟨m.symbolId, m.side, m.price, m.qty⟩
    (¬ ValidOrder o ∧ b.onTrade m = (b, none)) ∨
    (ValidOrder o ∧ b.onTrade m =
      let b' := b.setBook m.symbolId
        { b.book m.symbolId with lastPrice := m.price, lastQty := m.qty }
      (b', some (b'.makeTick m.symbolId m.hdr.seq m.hdr.tsNs .trade))) := by
  intro o
  unfold onTrade
  by_cases hacc : acceptable m.symbolId m.price m.qty = true
  · exact Or.inr ⟨acceptable_iff.mp hacc, by rw [if_pos hacc]⟩
  · exact Or.inl ⟨fun ho => hacc (acceptable_iff.mpr ho), by rw [if_neg hacc]⟩

/-! ## Rejection -/

/-- A message function returns early, before it changes anything: a bad field, an unknown id, no room
for a new one. -/
def rejects (b : BookBuilder) : BookMsg → Bool
  | .add m => !acceptable m.symbolId m.price m.qty ||
      (b.toOrderPool.insertOrder orderSlot m.orderId).2.isNone
  | .modify m => (b.findOrder orderSlot m.orderId).isNone || !acceptable m.symbolId m.price m.qty
  | .delete m => (b.findOrder orderSlot m.orderId).isNone
  | .trade m => !acceptable m.symbolId m.price m.qty

theorem Holds.insert_isSome (h : Holds S b) (orderId : UInt64) :
    (b.toOrderPool.insertOrder orderSlot orderId).2.isSome = true ↔ S.orders.keys.card < 65536 := by
  rcases Nat.lt_or_ge S.orders.keys.card 65536 with hroom | hfull
  · refine iff_of_true ?_ hroom
    cases hl : S.orders.lookup orderId with
    | none =>
      obtain ⟨idx, pool, -, -, heq, -⟩ := h.pool.insert_new hl hroom
      rw [heq]
      rfl
    | some o =>
      obtain ⟨idx, heq, -⟩ := h.pool.insert_live hl hroom
      rw [heq]
      rfl
  · refine iff_of_false ?_ (Nat.not_lt.mpr hfull)
    rw [h.pool.insert_full orderId hfull]
    exact Bool.false_ne_true

theorem Holds.find_isSome (h : Holds S b) (orderId : UInt64) :
    (b.findOrder orderSlot orderId).isSome = true ↔ orderId ∈ S.orders := by
  rw [← not_iff_not, Option.not_isSome_iff_eq_none, h.pool.find_none, Finmap.lookup_eq_none]

/-- **What is rejected**, in terms of the abstract book. -/
theorem Holds.rejects_eq_false (h : Holds S b) (m : BookMsg) :
    b.rejects m = false ↔ S.Admits m := by
  cases m with
  | add m =>
    simp only [rejects, BookSpec.Admits, Bool.or_eq_false_iff, Bool.not_eq_false',
      Option.isNone_eq_false_iff]
    rw [acceptable_iff, h.insert_isSome]
  | modify m =>
    simp only [rejects, BookSpec.Admits, Bool.or_eq_false_iff, Bool.not_eq_false',
      Option.isNone_eq_false_iff]
    rw [acceptable_iff, h.find_isSome, and_comm]
  | delete m =>
    simp only [rejects, BookSpec.Admits, Option.isNone_eq_false_iff]
    exact h.find_isSome m.orderId
  | trade m =>
    simp only [rejects, BookSpec.Admits, Bool.not_eq_false']
    exact acceptable_iff

/-- A rejected message changes nothing and is not answered. -/
theorem Holds.handle_of_rejects (h : Holds S b) {m : BookMsg} (hr : b.rejects m = true) :
    b.handle m = (b, none) := by
  have hno : ¬ S.Admits m := by
    rw [← h.rejects_eq_false, hr]
    decide
  cases m with
  | add m =>
    rcases onAdd_cases h m with ⟨-, heq⟩ | ⟨ho, hroom, -⟩
    · exact heq
    · exact absurd ⟨ho, hroom⟩ hno
  | modify m =>
    rcases onModify_cases h m with ⟨-, heq⟩ | ⟨ho, o₀, hl, -⟩
    · exact heq
    · exact absurd ⟨ho, Finmap.mem_of_lookup_eq_some hl⟩ hno
  | delete m =>
    rcases onDelete_cases h m with ⟨-, heq⟩ | ⟨o₀, hl, -⟩
    · exact heq
    · exact absurd (Finmap.mem_of_lookup_eq_some hl) hno
  | trade m =>
    rcases onTrade_cases b m with ⟨-, heq⟩ | ⟨ho, -⟩
    · exact heq
    · exact absurd ho hno

/-! ## The step -/

theorem last_withdraw (h : Holds S b) {orderId : UInt64} {symbolId : UInt32}
    (hsym : symbolId.toNat < 32) :
    ((b.withdraw (S.orders.lookup orderId)).book symbolId).lastPrice = (S.last symbolId).1 ∧
      ((b.withdraw (S.orders.lookup orderId)).book symbolId).lastQty = (S.last symbolId).2 := by
  cases hl : S.orders.lookup orderId with
  | none => exact h.last symbolId hsym
  | some o =>
    have ho := h.valid orderId o hl
    simp only [withdraw, removeLevelAt]
    rw [(last_updateSide ho.1 hsym).1, (last_updateSide ho.1 hsym).2]
    exact h.last symbolId hsym

/-- The state after an order has been added or modified. -/
theorem Holds.replace (h : Holds S b) {orderId : UInt64} {o : OrderFields} (ho : ValidOrder o)
    {pool : OrderPool} (hpool : pool.Refines orderSlot (S.orders.insert orderId o)) :
    Holds { S with orders := S.orders.insert orderId o }
      ((b.withdraw (S.orders.lookup orderId)).deposit o pool) := by
  refine ⟨hpool, ?_, ?_⟩
  · intro k o' hk
    dsimp only at hk
    by_cases hid : k = orderId
    · rw [hid, Finmap.lookup_insert] at hk
      rw [← Option.some.inj hk]
      exact ho
    · rw [Finmap.lookup_insert_of_ne _ hid] at hk
      exact h.valid k o' hk
  · intro symbolId hsym
    have hbook : ((b.withdraw (S.orders.lookup orderId)).deposit o pool).book symbolId
        = ((b.withdraw (S.orders.lookup orderId)).addLevelAt o.symbolId o.side o.price
            o.qty).book symbolId := rfl
    rw [hbook]
    unfold addLevelAt
    rw [(last_updateSide ho.1 hsym).1, (last_updateSide ho.1 hsym).2]
    exact last_withdraw h hsym

/-- **Every message keeps the pool and the last trades in step**, with no assumption at all. -/
theorem Holds.handle (h : Holds S b) (m : BookMsg) : Holds (S.step m) (b.handle m).1 := by
  cases m with
  | add m =>
    simp only [BookSpec.step, BookBuilder.handle]
    rcases onAdd_cases h m with ⟨hno, heq⟩ | ⟨ho, hroom, pool, hpool, heq⟩
    · rw [heq, if_neg hno]
      exact h
    · rw [heq, if_pos ⟨ho, hroom⟩]
      exact h.replace ho hpool
  | modify m =>
    simp only [BookSpec.step, BookBuilder.handle]
    rcases onModify_cases h m with ⟨hno, heq⟩ | ⟨ho, o₀, hl, pool, hpool, heq⟩
    · rw [heq, if_neg hno]
      exact h
    · rw [heq, if_pos ⟨ho, Finmap.mem_of_lookup_eq_some hl⟩, ← hl]
      exact h.replace ho hpool
  | delete m =>
    simp only [BookSpec.step, BookBuilder.handle]
    rcases onDelete_cases h m with ⟨hl, heq⟩ | ⟨o₀, hl, pool, hpool, heq⟩
    · rw [heq, OrderPool.erase_absent hl]
      exact h
    · rw [heq]
      refine ⟨hpool, ?_, ?_⟩
      · intro k o' hk
        dsimp only at hk
        by_cases hid : k = m.orderId
        · rw [hid, Finmap.lookup_erase] at hk
          cases hk
        · rw [Finmap.lookup_erase_ne hid] at hk
          exact h.valid k o' hk
      · intro symbolId hsym
        rw [← hl]
        exact last_withdraw h hsym
  | trade m =>
    simp only [BookSpec.step, BookBuilder.handle]
    rcases onTrade_cases b m with ⟨hno, heq⟩ | ⟨ho, heq⟩
    · rw [heq, if_neg hno]
      exact h
    · rw [heq, if_pos ho]
      refine ⟨h.pool, h.valid, ?_⟩
      intro symbolId hsym
      dsimp only
      rw [book_setBook ho.1 hsym]
      split_ifs with hat
      · subst hat
        rw [Function.update_self]
        exact ⟨rfl, rfl⟩
      · rw [Function.update_of_ne (fun h0 => hat h0.symm)]
        exact h.last symbolId hsym

theorem eq_of_tickIfChanged {before after : TopOfBook} {symbolId : UInt32} {hdr : Header}
    {cause : MsgType} {t : NormalizedTick}
    (ht : b.tickIfChanged before after symbolId hdr cause = some t) :
    t = b.makeTick symbolId hdr.seq hdr.tsNs cause := by
  unfold tickIfChanged at ht
  split_ifs at ht
  exact (Option.some.inj ht).symm

/-- Every tick is made from the new state, for a symbol of the book. -/
theorem Holds.tick (h : Holds S b) {m : BookMsg} {t : NormalizedTick}
    (ht : (b.handle m).2 = some t) :
    ∃ symbolId seq tsNs cause, symbolId.toNat < 32 ∧
      t = (b.handle m).1.makeTick symbolId seq tsNs cause := by
  cases m with
  | add m =>
    simp only [BookBuilder.handle] at ht ⊢
    rcases onAdd_cases h m with ⟨-, heq⟩ | ⟨ho, -, pool, -, heq⟩
    · rw [heq] at ht
      cases ht
    · rw [heq] at ht ⊢
      exact ⟨m.symbolId, m.hdr.seq, m.hdr.tsNs, _, ho.1, eq_of_tickIfChanged ht⟩
  | modify m =>
    simp only [BookBuilder.handle] at ht ⊢
    rcases onModify_cases h m with ⟨-, heq⟩ | ⟨ho, o₀, -, pool, -, heq⟩
    · rw [heq] at ht
      cases ht
    · rw [heq] at ht ⊢
      exact ⟨m.symbolId, m.hdr.seq, m.hdr.tsNs, _, ho.1, eq_of_tickIfChanged ht⟩
  | delete m =>
    simp only [BookBuilder.handle] at ht ⊢
    rcases onDelete_cases h m with ⟨-, heq⟩ | ⟨o₀, hl, pool, -, heq⟩
    · rw [heq] at ht
      cases ht
    · rw [heq] at ht ⊢
      exact ⟨o₀.symbolId, m.hdr.seq, m.hdr.tsNs, _, (h.valid _ _ hl).1, eq_of_tickIfChanged ht⟩
  | trade m =>
    simp only [BookBuilder.handle] at ht ⊢
    rcases onTrade_cases b m with ⟨-, heq⟩ | ⟨ho, heq⟩
    · rw [heq] at ht
      cases ht
    · rw [heq] at ht ⊢
      exact ⟨m.symbolId, m.hdr.seq, m.hdr.tsNs, _, ho.1, (Option.some.inj ht).symm⟩

end BookBuilder

theorem runBook_holds (msgs : List BookMsg) : (runBook msgs).Holds (specBook msgs) := by
  induction msgs using List.reverseRecOn with
  | nil => exact BookBuilder.holds_init
  | append_singleton pre m ih =>
    rw [runBook_snoc, specBook_snoc]
    exact ih.handle m

end MarketDataPipeline.Book
