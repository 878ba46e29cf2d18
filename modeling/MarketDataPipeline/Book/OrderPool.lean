/-
# MarketDataPipeline.Book.OrderPool — the table of live orders.

`orders_`, `live_count_` and the three private functions on them from `book.cpp`.  The functions take
`order_slot` as an argument: nothing that is proved here depends on how ids are spread over the slots,
and the book builder supplies the mixer of the source.

The pool is compared with a finite map from order ids to the four fields a caller can write
(`Refines`).  Its table invariant is the library's `Sound`; the clear slot it carries is what makes
deletion right in a table with all 65536 slots live.
-/
import Mathlib.Data.Finmap
import MarketDataPipeline.Library.LinearProbing
import MarketDataPipeline.Library.Loop
import MarketDataPipeline.Wire.Protocol

namespace MarketDataPipeline.Book

open MarketDataPipeline.Library.LinearProbing
open MarketDataPipeline.Library.Loop
open MarketDataPipeline.Wire

/-! ## State -/

def kOrderPool : Nat := 1 <<< 16

instance : NeZero kOrderPool := ⟨by decide⟩

structure OrderRecord where
  orderId : UInt64 := 0
  symbolId : UInt32 := 0
  side : Side := .buy
  price : UInt32 := 0
  qty : UInt32 := 0
  state : UInt8 := 0 -- 0 free, 1 live
  deriving DecidableEq, Repr

structure OrderPool where
  orders : Fin kOrderPool → OrderRecord := fun _ => {}
  liveCount : Nat := 0

/-- Stepping from slot to slot in `Fin kOrderPool` is the masked increment of the source. -/
theorem slot_succ_val (idx : Fin kOrderPool) :
    (idx + 1).val = (idx.val + 1) &&& (kOrderPool - 1) := by
  rw [show kOrderPool - 1 = 2 ^ 16 - 1 from rfl, Nat.and_two_pow_sub_one_eq_mod, Fin.val_add]
  rfl

/-! ## Operations -/

namespace OrderPool

/-- The body of the search loop in `find_order` and `erase_order`. -/
def visitOrder (orders : Fin kOrderPool → OrderRecord) (orderId : UInt64) (idx : Fin kOrderPool) :
    Option (Option (Fin kOrderPool)) :=
  if (orders idx).state = 0 then some none
  else if (orders idx).state = 1 ∧ (orders idx).orderId = orderId then some (some idx)
  else none

/-- The body of the search loop in `insert_order`. -/
def visitFree (orders : Fin kOrderPool → OrderRecord) (idx : Fin kOrderPool) :
    Option (Fin kOrderPool) :=
  if (orders idx).state = 0 then some idx else none

variable (orderSlot : UInt64 → Fin kOrderPool)

/-- The slot of the record, `none` for the null pointer. -/
def findOrder (p : OrderPool) (orderId : UInt64) : Option (Fin kOrderPool) :=
  (probe (visitOrder p.orders orderId) kOrderPool (orderSlot orderId)).join

def insertOrder (p : OrderPool) (orderId : UInt64) : OrderPool × Option (Fin kOrderPool) :=
  -- a full pool refuses before it looks, also an id that is live
  if kOrderPool ≤ p.liveCount then (p, none)
  else
    match p.findOrder orderSlot orderId with
    | some existing => (p, some existing)
    | none =>
      match probe (visitFree p.orders) kOrderPool (orderSlot orderId) with
      | some idx =>
        ({ orders := Function.update p.orders idx { orderId := orderId, state := 1 }
           liveCount := p.liveCount + 1 }, some idx)
      | none => (p, none)

/-- The variables of the backshift loop. -/
structure Backshift where
  orders : Fin kOrderPool → OrderRecord
  hole : Fin kOrderPool
  cur : Fin kOrderPool

/-- `can_move` of the source. -/
def CanMove (hole cur home : Fin kOrderPool) : Prop :=
  if hole < cur then home ≤ hole ∨ cur < home else home ≤ hole ∧ cur < home

instance (hole cur home : Fin kOrderPool) : Decidable (CanMove hole cur home) :=
  inferInstanceAs
    (Decidable (if hole < cur then home ≤ hole ∨ cur < home else home ≤ hole ∧ cur < home))

/-- One pass of the backshift loop, with its two exits: an empty slot, and the slot it started from. -/
def backshiftPass (found : Fin kOrderPool) (b : Backshift) :
    Pass Backshift ((Fin kOrderPool → OrderRecord) × Fin kOrderPool) :=
  if (b.orders b.cur).state = 1 then
    -- an entry may move back if the hole is still on its way from its home slot
    let home := orderSlot (b.orders b.cur).orderId
    let moved : (Fin kOrderPool → OrderRecord) × Fin kOrderPool :=
      if CanMove b.hole b.cur home then (Function.update b.orders b.hole (b.orders b.cur), b.cur)
      else (b.orders, b.hole)
    if b.cur + 1 = found then .done moved
    else .again { orders := moved.1, hole := moved.2, cur := b.cur + 1 }
  else .done (b.orders, b.hole)

/-- The cursor comes closer to the slot the loop started from, whatever the table holds. -/
theorem backshiftPass_variant (found : Fin kOrderPool) :
    Variant (backshiftPass orderSlot found) (fun b => kOrderPool - 1 - dist found b.cur) := by
  intro b b' h
  unfold backshiftPass at h
  split_ifs at h with hstate hback
  cases h
  have hstep := dist_succ hback
  have hlt := dist_lt found (b.cur + 1)
  dsimp only
  omega

/-- The backshift loop after the slot `found` has been freed. -/
def backshift (orders : Fin kOrderPool → OrderRecord) (found : Fin kOrderPool) :
    (Fin kOrderPool → OrderRecord) × Fin kOrderPool :=
  run (backshiftPass orderSlot found) _ (backshiftPass_variant orderSlot found)
    { orders := orders, hole := found, cur := found + 1 }

def eraseOrder (p : OrderPool) (orderId : UInt64) : OrderPool :=
  match p.findOrder orderSlot orderId with
  | none => p
  | some found =>
    let shifted := backshift orderSlot p.orders found
    { orders := Function.update shifted.1 shifted.2 {}
      liveCount := if 0 < p.liveCount then p.liveCount - 1 else p.liveCount }

end OrderPool

/-! ## The abstract map -/

/-- The fields of a record that callers write. -/
structure OrderFields where
  symbolId : UInt32 := 0
  side : Side := .buy
  price : UInt32 := 0
  qty : UInt32 := 0
  deriving DecidableEq, Repr

/-- The live orders: id to fields. -/
abbrev OrderMap := Finmap fun _ : UInt64 => OrderFields

/-- The record of a live order. -/
def recordOf (orderId : UInt64) (o : OrderFields) : OrderRecord where
  orderId := orderId
  symbolId := o.symbolId
  side := o.side
  price := o.price
  qty := o.qty
  state := 1

/-- The fields of a record that callers write. -/
def OrderRecord.fields (r : OrderRecord) : OrderFields := ⟨r.symbolId, r.side, r.price, r.qty⟩

/-- A caller's write to the non-key fields of a record. -/
def OrderPool.writeFields (p : OrderPool) (idx : Fin kOrderPool) (o : OrderFields) : OrderPool :=
  let written : OrderRecord := { p.orders idx with
    symbolId := o.symbolId
    side := o.side
    price := o.price
    qty := o.qty }
  { p with orders := Function.update p.orders idx written }

/-- The key of a live record. -/
def liveKey (r : OrderRecord) : Option UInt64 := if r.state = 1 then some r.orderId else none

theorem liveKey_eq_some {r : OrderRecord} {orderId : UInt64} :
    liveKey r = some orderId ↔ r.state = 1 ∧ r.orderId = orderId := by
  unfold liveKey
  split_ifs with h <;> simp [h]

theorem liveKey_eq_none {r : OrderRecord} : liveKey r = none ↔ r.state ≠ 1 := by
  unfold liveKey
  split_ifs with h <;> simp [h]

@[simp] theorem liveKey_recordOf (orderId : UInt64) (o : OrderFields) :
    liveKey (recordOf orderId o) = some orderId := rfl

theorem recordOf_injective {orderId : UInt64} {o o' : OrderFields}
    (h : recordOf orderId o = recordOf orderId o') : o = o' := by
  cases o
  cases o'
  simpa [recordOf] using h

/-- The invariant of the pool on its own. -/
structure OrderPool.Sound (orderSlot : UInt64 → Fin kOrderPool) (p : OrderPool) : Prop where
  table : Library.LinearProbing.Sound liveKey orderSlot p.orders
  free : ∀ s, (p.orders s).state ≠ 1 → p.orders s = {}

/-- **The pool holds the map `M`.** -/
structure OrderPool.Refines (orderSlot : UInt64 → Fin kOrderPool) (M : OrderMap) (p : OrderPool) :
    Prop where
  sound : p.Sound orderSlot
  content : ∀ orderId o, M.lookup orderId = some o ↔ ∃ s, p.orders s = recordOf orderId o
  count : p.liveCount = M.keys.card

/-! ## Searching -/

namespace OrderPool

variable {orderSlot : UInt64 → Fin kOrderPool} {p : OrderPool} {M : OrderMap}

theorem Sound.state_eq_zero (h : p.Sound orderSlot) {s : Fin kOrderPool}
    (hs : liveKey (p.orders s) = none) : (p.orders s).state = 0 := by
  rw [h.free s (liveKey_eq_none.mp hs)]

theorem state_ne_zero {r : OrderRecord} {orderId : UInt64} (h : liveKey r = some orderId) :
    r.state ≠ 0 := by
  rw [(liveKey_eq_some.mp h).1]
  decide

/-- **`find_order` finds exactly the slot that holds the id.** -/
theorem Sound.findOrder_eq_some (h : p.Sound orderSlot) {orderId : UInt64} {s : Fin kOrderPool} :
    p.findOrder orderSlot orderId = some s ↔ liveKey (p.orders s) = some orderId := by
  unfold findOrder
  constructor
  · intro hfind
    rw [Option.join_eq_some_iff] at hfind
    obtain ⟨s', hs'⟩ := probe_some hfind
    unfold visitOrder at hs'
    split_ifs at hs' with hzero hmatch
    · cases hs'
    · cases hs'
      exact liveKey_eq_some.mpr hmatch
  · intro hs
    have hvisit : visitOrder p.orders orderId s = some (some s) := by
      unfold visitOrder
      rw [if_neg (state_ne_zero hs), if_pos (liveKey_eq_some.mp hs)]
    rw [probe_first hvisit]
    · rfl
    · intro x hx
      obtain ⟨k, hk, hne⟩ := h.table.path hs hx
      unfold visitOrder
      rw [if_neg (state_ne_zero hk), if_neg]
      rintro ⟨-, hid⟩
      exact hne ((liveKey_eq_some.mp hk).2.symm.trans hid)

theorem Sound.findOrder_eq_none (h : p.Sound orderSlot) {orderId : UInt64} :
    p.findOrder orderSlot orderId = none ↔ ∀ s, liveKey (p.orders s) ≠ some orderId := by
  rw [Option.eq_none_iff_forall_ne_some]
  exact forall_congr' fun s => not_congr h.findOrder_eq_some

/-- A live record is the record of an order. -/
theorem eq_recordOf {r : OrderRecord} {orderId : UInt64} (h : liveKey r = some orderId) :
    r = recordOf orderId ⟨r.symbolId, r.side, r.price, r.qty⟩ := by
  obtain ⟨hstate, rfl⟩ := liveKey_eq_some.mp h
  cases r
  simp only at hstate
  rw [hstate]
  rfl

theorem Refines.live (h : p.Refines orderSlot M) (orderId : UInt64) :
    orderId ∈ M.keys ↔ ∃ s, liveKey (p.orders s) = some orderId := by
  rw [Finmap.mem_keys, Finmap.mem_iff]
  constructor
  · rintro ⟨o, ho⟩
    obtain ⟨s, hs⟩ := (h.content orderId o).mp ho
    exact ⟨s, by rw [hs, liveKey_recordOf]⟩
  · rintro ⟨s, hs⟩
    exact ⟨_, (h.content orderId _).mpr ⟨s, eq_recordOf hs⟩⟩

/-- There are no more live orders than slots. -/
theorem Refines.card_le (h : p.Refines orderSlot M) : M.keys.card ≤ 65536 := by
  have hsub : M.keys ⊆ Finset.univ.image fun s => (p.orders s).orderId := by
    intro orderId hid
    obtain ⟨s, hs⟩ := (h.live orderId).mp hid
    exact Finset.mem_image.mpr ⟨s, Finset.mem_univ s, (liveKey_eq_some.mp hs).2⟩
  calc M.keys.card ≤ (Finset.univ.image fun s => (p.orders s).orderId).card :=
        Finset.card_le_card hsub
    _ ≤ (Finset.univ : Finset (Fin kOrderPool)).card := Finset.card_image_le
    _ = kOrderPool := Finset.card_fin _

/-- The record that `find_order` points to holds the fields of the map. -/
theorem Refines.find (h : p.Refines orderSlot M) (orderId : UInt64) :
    (p.findOrder orderSlot orderId).map p.orders = (M.lookup orderId).map (recordOf orderId) := by
  cases hf : p.findOrder orderSlot orderId with
  | some s =>
    have hs := h.sound.findOrder_eq_some.mp hf
    have ho := (h.content orderId _).mpr ⟨s, eq_recordOf hs⟩
    rw [ho, Option.map_some, Option.map_some, ← eq_recordOf hs]
  | none =>
    have hnone : M.lookup orderId = none := by
      rw [Option.eq_none_iff_forall_ne_some]
      intro o ho
      obtain ⟨s, hs⟩ := (h.content orderId o).mp ho
      exact h.sound.findOrder_eq_none.mp hf s (by rw [hs, liveKey_recordOf])
    rw [hnone]
    rfl

theorem Refines.find_some (h : p.Refines orderSlot M) {orderId : UInt64} {s : Fin kOrderPool}
    (hf : p.findOrder orderSlot orderId = some s) :
    ∃ o, M.lookup orderId = some o ∧ p.orders s = recordOf orderId o := by
  have heq := h.find orderId
  rw [hf, Option.map_some] at heq
  obtain ⟨o, ho, hr⟩ := Option.map_eq_some_iff.mp heq.symm
  exact ⟨o, ho, hr.symm⟩

theorem Refines.find_none (h : p.Refines orderSlot M) {orderId : UInt64} :
    p.findOrder orderSlot orderId = none ↔ M.lookup orderId = none := by
  have heq := h.find orderId
  constructor
  · intro hf
    rw [hf] at heq
    exact Option.map_eq_none_iff.mp heq.symm
  · intro hl
    rw [hl] at heq
    exact Option.map_eq_none_iff.mp heq

/-! ## Inserting and writing -/

/-- Putting the record of `orderId` into a slot that is free or already belongs to it. -/
theorem Refines.put (h : p.Refines orderSlot M) {orderId : UInt64} {s : Fin kOrderPool}
    (hs : ∀ k, liveKey (p.orders s) = some k → k = orderId)
    (hother : ∀ x, x ≠ s → liveKey (p.orders x) ≠ some orderId) (o : OrderFields)
    (orderId' : UInt64) (o' : OrderFields) :
    (M.insert orderId o).lookup orderId' = some o' ↔
      ∃ x, Function.update p.orders s (recordOf orderId o) x = recordOf orderId' o' := by
  by_cases hid : orderId' = orderId
  · subst hid
    rw [Finmap.lookup_insert]
    constructor
    · intro heq
      rw [Option.some.inj heq]
      exact ⟨s, Function.update_self ..⟩
    · rintro ⟨x, hx⟩
      by_cases hxs : x = s
      · rw [hxs, Function.update_self] at hx
        rw [recordOf_injective hx]
      · rw [Function.update_of_ne hxs] at hx
        exact absurd (by rw [hx, liveKey_recordOf]) (hother x hxs)
  · rw [Finmap.lookup_insert_of_ne _ hid, h.content]
    constructor
    · rintro ⟨x, hx⟩
      have hxs : x ≠ s := by
        rintro rfl
        exact hid (hs orderId' (by rw [hx, liveKey_recordOf]))
      exact ⟨x, by rw [Function.update_of_ne hxs]; exact hx⟩
    · rintro ⟨x, hx⟩
      by_cases hxs : x = s
      · rw [hxs, Function.update_self] at hx
        exact absurd (congrArg OrderRecord.orderId hx).symm hid
      · rw [Function.update_of_ne hxs] at hx
        exact ⟨x, hx⟩

theorem Sound.free_update (h : p.Sound orderSlot) {s : Fin kOrderPool} {orderId : UInt64}
    {o : OrderFields} (x : Fin kOrderPool)
    (hx : (Function.update p.orders s (recordOf orderId o) x).state ≠ 1) :
    Function.update p.orders s (recordOf orderId o) x = {} := by
  by_cases hxs : x = s
  · rw [hxs, Function.update_self] at hx
    exact absurd rfl hx
  · rw [Function.update_of_ne hxs] at hx ⊢
    exact h.free x hx

theorem keys_insert (M : OrderMap) (orderId : UInt64) (o : OrderFields) :
    (M.insert orderId o).keys = insert orderId M.keys := by
  ext k
  rw [Finset.mem_insert, Finmap.mem_keys, Finmap.mem_keys, Finmap.mem_insert]

/-- A new id gets the first free slot of its search, with default fields. -/
theorem Refines.insert_new (h : p.Refines orderSlot M) {orderId : UInt64}
    (hnew : M.lookup orderId = none) (hroom : M.keys.card < kOrderPool) :
    ∃ s p', liveKey (p.orders s) = none ∧
      p' = ⟨Function.update p.orders s (recordOf orderId {}), p.liveCount + 1⟩ ∧
      p.insertOrder orderSlot orderId = (p', some s) ∧
      p'.findOrder orderSlot orderId = some s ∧ p'.Refines orderSlot (M.insert orderId {}) := by
  have hfind := h.find_none.mpr hnew
  have habsent := h.sound.findOrder_eq_none.mp hfind
  -- the first free slot on the search path of the id
  obtain ⟨s, hs, hfirst⟩ := exists_first (fun s => liveKey (p.orders s) = none)
    ((h.sound.table.exists_free h.live).mpr hroom) (orderSlot orderId)
  have hprobe : probe (visitFree p.orders) kOrderPool (orderSlot orderId) = some s := by
    apply probe_first
    · unfold visitFree
      rw [if_pos (h.sound.state_eq_zero hs)]
    · intro x hx
      obtain ⟨k, hk⟩ := Option.ne_none_iff_exists'.mp (hfirst x hx)
      unfold visitFree
      rw [if_neg (state_ne_zero hk)]
  have htable : Library.LinearProbing.Sound liveKey orderSlot
      (Function.update p.orders s (recordOf orderId {})) :=
    h.sound.table.insert hs habsent hfirst rfl
  have hsound : Sound orderSlot
      ⟨Function.update p.orders s (recordOf orderId {}), p.liveCount + 1⟩ :=
    ⟨htable, h.sound.free_update⟩
  refine ⟨s, ⟨Function.update p.orders s (recordOf orderId {}), p.liveCount + 1⟩, hs, rfl, ?_, ?_,
    hsound, ?_, ?_⟩
  · unfold insertOrder
    rw [if_neg (by rw [h.count]; omega), hfind]
    simp only [hprobe]
    rfl
  · rw [hsound.findOrder_eq_some]
    dsimp only
    rw [Function.update_self, liveKey_recordOf]
  · refine h.put ?_ (fun x _ => habsent x) {}
    intro k hk
    rw [hs] at hk
    cases hk
  · have hnot : orderId ∉ M.keys := by
      rw [Finmap.mem_keys, ← Finmap.lookup_eq_none]
      exact hnew
    rw [keys_insert, Finset.card_insert_of_notMem hnot, h.count]

/-- An id that is live is returned as it is, but only while the pool is not full. -/
theorem Refines.insert_live (h : p.Refines orderSlot M) {orderId : UInt64} {o : OrderFields}
    (hlive : M.lookup orderId = some o) (hroom : M.keys.card < kOrderPool) :
    ∃ s, p.insertOrder orderSlot orderId = (p, some s) ∧
      p.findOrder orderSlot orderId = some s := by
  cases hfind : p.findOrder orderSlot orderId with
  | none =>
    rw [h.find_none, hlive] at hfind
    cases hfind
  | some s =>
    refine ⟨s, ?_, rfl⟩
    unfold insertOrder
    rw [if_neg (by rw [h.count]; omega), hfind]

theorem Refines.insert_full (h : p.Refines orderSlot M) (orderId : UInt64)
    (hfull : kOrderPool ≤ M.keys.card) : p.insertOrder orderSlot orderId = (p, none) := by
  unfold insertOrder
  rw [if_pos (by rw [h.count]; exact hfull)]

/-- Writing the fields of a live record. -/
theorem Refines.write (h : p.Refines orderSlot M) {orderId : UInt64} {s : Fin kOrderPool}
    (hf : p.findOrder orderSlot orderId = some s) (o : OrderFields) :
    (p.writeFields s o).Refines orderSlot (M.insert orderId o) := by
  obtain ⟨o₀, ho₀, hrec⟩ := h.find_some hf
  have horders : (p.writeFields s o).orders = Function.update p.orders s (recordOf orderId o) := by
    unfold writeFields
    rw [hrec]
    rfl
  have hs : liveKey (p.orders s) = some orderId := by rw [hrec, liveKey_recordOf]
  refine ⟨⟨?_, ?_⟩, ?_, ?_⟩
  · rw [horders]
    exact h.sound.table.rewrite hs.symm
  · rw [horders]
    exact h.sound.free_update
  · rw [horders]
    refine h.put ?_ ?_ o
    · intro k hk
      exact Option.some.inj (hk.symm.trans hs)
    · intro x hx hk
      exact hx (h.sound.table.unique x s orderId hk hs)
  · have hmem : orderId ∈ M.keys := by
      rw [Finmap.mem_keys]
      exact Finmap.mem_of_lookup_eq_some ho₀
    rw [keys_insert, Finset.insert_eq_self.mpr hmem]
    exact h.count

/-! ## Erasing -/

/-- The comparison in the source is the cyclic one: the hole is on the path of the entry. -/
theorem canMove_iff {hole cur home : Fin kOrderPool} (hne : hole ≠ cur) :
    CanMove hole cur home ↔ OnPath home cur hole := by
  have hval : hole.val ≠ cur.val := fun heq => hne (Fin.ext heq)
  have hcur := cur.isLt
  unfold CanMove OnPath
  simp only [dist_eq, Fin.lt_def, Fin.le_def]
  split_ifs <;> omega

/-- What the backshift loop leaves once its last hole is cleared. -/
structure Shifted (orderSlot : UInt64 → Fin kOrderPool) (orders : Fin kOrderPool → OrderRecord)
    (found : Fin kOrderPool) (orders' : Fin kOrderPool → OrderRecord) : Prop where
  table : Library.LinearProbing.Sound liveKey orderSlot orders'
  content : ∀ r, r ≠ {} → ((∃ s, orders' s = r) ↔ ∃ s, s ≠ found ∧ orders s = r)

/-- The loop invariant: the library's, with the cursor `n` steps after the slot that was freed. -/
def ShiftInv (orderSlot : UInt64 → Fin kOrderPool) (orders : Fin kOrderPool → OrderRecord)
    (found spare : Fin kOrderPool) (b : Backshift) : Prop :=
  Shifting liveKey orderSlot orders found spare (dist found b.cur) b.hole b.orders

section Erase

variable {found spare : Fin kOrderPool}

/-- One pass, whichever branch it takes, moves the invariant one slot on. -/
theorem shiftInv_step (hspare : Clear liveKey orderSlot p.orders spare) {b : Backshift}
    (hb : ShiftInv orderSlot p.orders found spare b) (hlive : (b.orders b.cur).state = 1) :
    Shifting liveKey orderSlot p.orders found spare (dist found b.cur + 1)
      (if CanMove b.hole b.cur (orderSlot (b.orders b.cur).orderId) then b.cur else b.hole)
      (if CanMove b.hole b.cur (orderSlot (b.orders b.cur).orderId) then
        Function.update b.orders b.hole (b.orders b.cur) else b.orders) := by
  have hkey : liveKey (b.orders b.cur) = some (b.orders b.cur).orderId := if_pos hlive
  have hne : b.hole ≠ b.cur := by
    intro heq
    have hlt := hb.hole_lt
    rw [heq] at hlt
    exact Nat.lt_irrefl _ hlt
  by_cases hmove : CanMove b.hole b.cur (orderSlot (b.orders b.cur).orderId)
  · rw [if_pos hmove, if_pos hmove]
    exact hb.move hspare rfl hkey ((canMove_iff hne).mp hmove)
  · rw [if_neg hmove, if_neg hmove]
    exact hb.keep hspare rfl hkey (fun hon => hmove ((canMove_iff hne).mpr hon))

/-- **The backshift loop**, from any sound table, full or not. -/
theorem backshift_shifted (h : p.Sound orderSlot) (hfound : (p.orders found).state = 1) :
    Shifted orderSlot p.orders found
      (Function.update (backshift orderSlot p.orders found).1
        (backshift orderSlot p.orders found).2 {}) := by
  obtain ⟨spare, hspare⟩ := h.table.spare
  unfold backshift
  refine run_invariant (I := ShiftInv orderSlot p.orders found spare)
    (Q := fun (r : (Fin kOrderPool → OrderRecord) × Fin kOrderPool) =>
      Shifted orderSlot p.orders found (Function.update r.1 r.2 {})) ?_ ?_ ?_
  · have hone : dist found (found + 1) = 1 := by
      have hne : found + 1 ≠ found := by
        intro hclosed
        have hN := dist_closed hclosed
        rw [dist_self] at hN
        exact absurd hN (by decide)
      rw [dist_succ hne, dist_self]
    unfold ShiftInv
    rw [hone]
    refine shifting_start h.table ?_
    rw [Ne, liveKey_eq_none, not_not]
    exact hfound
  · intro b b' hb hpass
    unfold backshiftPass at hpass
    split_ifs at hpass with hlive hback
    have hstep := shiftInv_step hspare hb hlive
    cases hpass
    unfold ShiftInv
    rw [dist_succ hback]
    split_ifs at hstep ⊢ <;> exact hstep
  · intro b r hb hpass
    unfold backshiftPass at hpass
    split_ifs at hpass with hlive hback
    · -- a full round
      have hstep := shiftInv_step hspare hb hlive
      have hround : ∀ s, dist found s < dist found b.cur + 1 := by
        intro s
        rw [dist_closed hback]
        exact dist_lt found s
      cases hpass
      split_ifs at hstep ⊢ <;>
        exact ⟨hstep.finish h.table rfl (Or.inl hround), fun r => hstep.finish_content r⟩
    · cases hpass
      have hempty : liveKey (b.orders b.cur) = none := liveKey_eq_none.mpr hlive
      exact ⟨hb.finish h.table rfl (Or.inr ⟨b.cur, rfl, hempty⟩), fun r => hb.finish_content r⟩

/-- No entry moves into a slot that was free before its own entry came: no path crosses it. -/
theorem backshift_filled (h : p.Sound orderSlot) (hfree : liveKey (p.orders found) = none)
    (r : OrderRecord) :
    backshift orderSlot (Function.update p.orders found r) found
      = (Function.update p.orders found r, found) := by
  have hstay : ∀ cur, cur ≠ found →
      (Function.update p.orders found r cur).state = 1 →
      ¬ CanMove found cur (orderSlot (Function.update p.orders found r cur).orderId) := by
    intro cur hne hlive
    rw [Function.update_of_ne hne] at hlive ⊢
    rw [canMove_iff hne.symm]
    exact h.table.empties found hfree cur _ (liveKey_eq_some.mpr ⟨hlive, rfl⟩)
  unfold backshift
  refine run_invariant
    (I := fun b => b.orders = Function.update p.orders found r ∧ b.hole = found ∧ b.cur ≠ found)
    (Q := fun q => q = (Function.update p.orders found r, found)) ?_ ?_ ?_
  · refine ⟨rfl, rfl, fun hclosed => ?_⟩
    have hN := dist_closed hclosed
    rw [dist_self] at hN
    exact absurd hN (by decide)
  · rintro b b' ⟨horders, hhole, hcur⟩ hpass
    unfold backshiftPass at hpass
    rw [horders, hhole] at hpass
    split_ifs at hpass with hlive hback
    dsimp only at hpass
    rw [if_neg (hstay _ hcur hlive)] at hpass
    cases hpass
    exact ⟨rfl, rfl, hback⟩
  · rintro b q ⟨horders, hhole, hcur⟩ hpass
    unfold backshiftPass at hpass
    rw [horders, hhole] at hpass
    split_ifs at hpass with hlive hback
    · dsimp only at hpass
      rw [if_neg (hstay _ hcur hlive)] at hpass
      cases hpass
      rfl
    · cases hpass
      rfl

end Erase

theorem recordOf_ne_default (orderId : UInt64) (o : OrderFields) : recordOf orderId o ≠ {} := by
  intro heq
  exact absurd (congrArg OrderRecord.state heq) (show (1 : UInt8) ≠ 0 by decide)

theorem erase_absent {orderId : UInt64} (hl : M.lookup orderId = none) : M.erase orderId = M := by
  apply Finmap.ext_lookup
  intro k
  by_cases hk : k = orderId
  · rw [hk, Finmap.lookup_erase, hl]
  · rw [Finmap.lookup_erase_ne hk]

/-- **`erase_order` removes exactly the id**, at every load. -/
theorem Refines.erase (h : p.Refines orderSlot M) (orderId : UInt64) :
    (p.eraseOrder orderSlot orderId).Refines orderSlot (M.erase orderId) := by
  unfold eraseOrder
  cases hf : p.findOrder orderSlot orderId with
  | none =>
    rw [erase_absent (h.find_none.mp hf)]
    exact h
  | some found =>
    have hkey := h.sound.findOrder_eq_some.mp hf
    obtain ⟨o, ho, hrec⟩ := h.find_some hf
    have hsh := backshift_shifted h.sound (liveKey_eq_some.mp hkey).1
    refine ⟨⟨hsh.table, ?_⟩, ?_, ?_⟩
    · -- whatever is not the default record was there before
      intro s hs
      dsimp only at hs ⊢
      by_contra hne
      obtain ⟨x, -, hx⟩ := (hsh.content _ hne).mp ⟨s, rfl⟩
      rw [← hx] at hs hne
      exact hne (h.sound.free x hs)
    · intro k o'
      dsimp only
      rw [hsh.content _ (recordOf_ne_default k o')]
      by_cases hk : k = orderId
      · subst hk
        rw [Finmap.lookup_erase]
        refine ⟨fun hn => (by cases hn), ?_⟩
        rintro ⟨x, hne, hx⟩
        exact absurd (h.sound.table.unique x found k (by rw [hx, liveKey_recordOf]) hkey) hne
      · rw [Finmap.lookup_erase_ne hk, h.content]
        refine exists_congr fun x => ⟨fun hx => ⟨?_, hx⟩, fun hx => hx.2⟩
        rintro rfl
        rw [hrec] at hx
        exact hk (congrArg OrderRecord.orderId hx).symm
    · have hmem : orderId ∈ M.keys := by
        rw [Finmap.mem_keys]
        exact Finmap.mem_of_lookup_eq_some ho
      have hpos : 0 < M.keys.card := Finset.card_pos.mpr ⟨orderId, hmem⟩
      dsimp only
      rw [Finmap.keys_erase, Finset.card_erase_of_mem hmem, h.count, if_pos hpos]

theorem refines_empty (orderSlot : UInt64 → Fin kOrderPool) :
    Refines orderSlot ∅ {} where
  sound := ⟨sound_empty fun _ => rfl, fun _ _ => rfl⟩
  content := by
    intro orderId o
    rw [Finmap.lookup_empty]
    refine ⟨fun hn => (by cases hn), ?_⟩
    rintro ⟨s, hs⟩
    exact absurd hs.symm (recordOf_ne_default orderId o)
  count := rfl

end OrderPool

/-! ## Whole runs -/

/-- A call on the pool, or a write through the pointer that a search returned. -/
inductive PoolOp where
  | insert (orderId : UInt64)
  | erase (orderId : UInt64)
  | find (orderId : UInt64)
  | write (orderId : UInt64) (o : OrderFields)
  deriving DecidableEq

def PoolOp.run (orderSlot : UInt64 → Fin kOrderPool) (p : OrderPool) : PoolOp → OrderPool
  | .insert orderId => (p.insertOrder orderSlot orderId).1
  | .erase orderId => p.eraseOrder orderSlot orderId
  | .find _ => p
  | .write orderId o =>
    match p.findOrder orderSlot orderId with
    | some s => p.writeFields s o
    | none => p

/-- The same calls on a bounded map. -/
def PoolOp.spec (M : OrderMap) : PoolOp → OrderMap
  | .insert orderId =>
    if orderId ∈ M ∨ kOrderPool ≤ M.keys.card then M else M.insert orderId {}
  | .erase orderId => M.erase orderId
  | .find _ => M
  | .write orderId o => if orderId ∈ M then M.insert orderId o else M

/-- Every call keeps the pool and the map together. -/
theorem PoolOp.refines {orderSlot : UInt64 → Fin kOrderPool} {M : OrderMap} {p : OrderPool}
    (h : p.Refines orderSlot M) (op : PoolOp) :
    (op.run orderSlot p).Refines orderSlot (op.spec M) := by
  cases op with
  | insert orderId =>
    simp only [PoolOp.run, PoolOp.spec]
    split_ifs with hcase
    · rcases Nat.lt_or_ge M.keys.card kOrderPool with hroom | hfull
      · obtain ⟨o, ho⟩ := Finmap.mem_iff.mp (hcase.resolve_right (Nat.not_le.mpr hroom))
        obtain ⟨s, heq, -⟩ := h.insert_live ho hroom
        rw [heq]
        exact h
      · rw [h.insert_full orderId hfull]
        exact h
    · rw [not_or, Nat.not_le, ← Finmap.lookup_eq_none] at hcase
      obtain ⟨s, p', -, -, heq, -, href⟩ := h.insert_new hcase.1 hcase.2
      rw [heq]
      exact href
  | erase orderId => exact h.erase orderId
  | find orderId => exact h
  | write orderId o =>
    simp only [PoolOp.run, PoolOp.spec]
    cases hf : p.findOrder orderSlot orderId with
    | none =>
      rw [if_neg (Finmap.lookup_eq_none.mp (h.find_none.mp hf))]
      exact h
    | some s =>
      obtain ⟨o₀, ho₀, -⟩ := h.find_some hf
      rw [if_pos (Finmap.mem_of_lookup_eq_some ho₀)]
      exact h.write hf o

/-- The pool and the map after a list of calls. -/
def runPool (orderSlot : UInt64 → Fin kOrderPool) (ops : List PoolOp) : OrderPool :=
  ops.foldl (PoolOp.run orderSlot) {}

def specPool (ops : List PoolOp) : OrderMap := ops.foldl PoolOp.spec ∅

theorem runPool_refines (orderSlot : UInt64 → Fin kOrderPool) (ops : List PoolOp) :
    (runPool orderSlot ops).Refines orderSlot (specPool ops) := by
  have key : ∀ (ops : List PoolOp) (p : OrderPool) (M : OrderMap), p.Refines orderSlot M →
      (ops.foldl (PoolOp.run orderSlot) p).Refines orderSlot (ops.foldl PoolOp.spec M) := by
    intro ops
    induction ops with
    | nil => intro p M h; exact h
    | cons op ops ih => intro p M h; exact ih _ _ (op.refines h)
  exact key ops {} ∅ (OrderPool.refines_empty orderSlot)

/-- **The order pool is a bounded map at every load**, whatever slots the ids are mapped to. -/
theorem order_pool_is_bounded_map (orderSlot : UInt64 → Fin kOrderPool) (ops : List PoolOp) :
    let p := runPool orderSlot ops
    let M := specPool ops
    (∀ orderId, (p.findOrder orderSlot orderId).map p.orders
      = (M.lookup orderId).map (recordOf orderId)) ∧
    (∀ orderId, orderId ∉ M →
      ((p.insertOrder orderSlot orderId).2.isSome ↔ M.keys.card < 65536)) ∧
    (∀ orderId orderId', ((p.eraseOrder orderSlot orderId).findOrder orderSlot orderId').map
        (p.eraseOrder orderSlot orderId).orders
      = if orderId' = orderId then none else (p.findOrder orderSlot orderId').map p.orders) ∧
    (∀ s s', (p.orders s).state = 1 → (p.orders s').state = 1 →
      (p.orders s).orderId = (p.orders s').orderId → s = s') ∧
    p.liveCount = M.keys.card ∧
    ∀ found b, Halts (OrderPool.backshiftPass orderSlot found) b := by
  intro p M
  have h : p.Refines orderSlot M := runPool_refines orderSlot ops
  refine ⟨h.find, ?_, ?_, ?_, h.count, ?_⟩
  · intro orderId hnew
    constructor
    · intro hsome
      by_contra hfull
      rw [h.insert_full orderId (Nat.not_lt.mp hfull)] at hsome
      cases hsome
    · intro hroom
      obtain ⟨s, p', -, -, heq, -⟩ := h.insert_new (Finmap.lookup_eq_none.mpr hnew) hroom
      rw [heq]
      rfl
  · intro orderId orderId'
    rw [(h.erase orderId).find, h.find]
    split_ifs with hid
    · rw [hid, Finmap.lookup_erase]
      rfl
    · rw [Finmap.lookup_erase_ne hid]
  · intro s s' hs hs' hid
    exact h.sound.table.unique s s' _ (if_pos hs) (by rw [hid]; exact if_pos hs')
  · intro found b
    exact halts_of_variant (OrderPool.backshiftPass_variant orderSlot found) b

/-- Three ids on one slot, at the end of the table so that the probes wrap. -/
def collidingOps : List PoolOp :=
  [.insert 1, .insert 2, .write 2 ⟨7, .sell, 100, 5⟩, .insert 3, .erase 1]

theorem order_pool_is_bounded_map_wrapped :
    ((runPool (fun _ => Fin.last 65535) collidingOps).findOrder (fun _ => Fin.last 65535) 2).map
        (runPool (fun _ => Fin.last 65535) collidingOps).orders
      = some (recordOf 2 ⟨7, .sell, 100, 5⟩) ∧
    ((runPool (fun _ => Fin.last 65535) collidingOps).insertOrder (fun _ => Fin.last 65535) 1).2.isSome
      := by
  obtain ⟨hfind, hinsert, -⟩ := order_pool_is_bounded_map (fun _ => Fin.last 65535) collidingOps
  refine ⟨(hfind 2).trans ?_, (hinsert 1 ?_).mpr ?_⟩
  · rfl
  · decide
  · decide

end MarketDataPipeline.Book
