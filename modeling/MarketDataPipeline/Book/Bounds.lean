/-
# MarketDataPipeline.Book.Bounds — every index of the book builder is in range.

The functions of `book.cpp` once more, with plain numbers for indices: `Checked.onAdd` and the rest read
and write `books_`, `qty`, `occupied` and `orders_` through `Bounds.read` and `Bounds.write`, and return
`none` at the first access outside an array.  `Checked.recomputeBest` also returns `none` if the price
that it finds is above `kPriceLevels`.

A message is tested before its fields are used.  The other indices were stored earlier: the fields of a
record, and the best price of a side.  So the invariant of the runs decides (`AllTidy`, `Holds`), and with
it every function returns what its unchecked form returns; `book_accesses_in_range` is the result.
-/
import MarketDataPipeline.Book.Tops
import MarketDataPipeline.Library.Bounds

namespace MarketDataPipeline.Book.Checked

open MarketDataPipeline.Wire
open MarketDataPipeline.Library.Bitmap
open MarketDataPipeline.Library.Bounds
open MarketDataPipeline.Library.LinearProbing
open MarketDataPipeline.Library.Loop
open BookBuilder (acceptable validPrice sameTop AllTidy)

/-! ## One side -/

def setOccupied (s : SideBook) (price : UInt32) (on : Bool) : Option SideBook := do
  let word := price.toNat / 64
  let mask := (1 : UInt64) <<< UInt64.ofNat (price.toNat % 64)
  let bits ← read s.occupied word
  let occupied ← write s.occupied word (if on then bits ||| mask else bits &&& ~~~mask)
  return { s with occupied := occupied }

def bidBits (s : SideBook) (word : Nat) : Option UInt64 := do
  let bits ← read s.occupied word
  if word = s.bestPrice.toNat / 64 then
    let bit := s.bestPrice.toNat % 64
    return if bit < 63 then bits &&& ((1 : UInt64) <<< UInt64.ofNat (bit + 1) - 1) else bits
  else return bits

def scanBid (s : SideBook) : Nat → Option UInt32
  | 0 => do
    let bits ← bidBits s 0
    return if bits ≠ 0 then UInt32.ofNat (0 * 64 + (63 - countlZero bits)) else 0
  | word + 1 => do
    let bits ← bidBits s (word + 1)
    if bits ≠ 0 then return UInt32.ofNat ((word + 1) * 64 + (63 - countlZero bits))
    else scanBid s word

def askBits (s : SideBook) (word : Nat) : Option UInt64 := do
  let bits ← read s.occupied word
  if word = s.bestPrice.toNat / 64 then
    return bits &&& ~~~((1 : UInt64) <<< UInt64.ofNat (s.bestPrice.toNat % 64) - 1)
  else return bits

def scanAsk (s : SideBook) : Nat → Nat → Option UInt32
  | 0, _ => some 0
  | n + 1, word => do
    let bits ← askBits s word
    if bits ≠ 0 then return UInt32.ofNat (word * 64 + countrZero bits)
    else scanAsk s n (word + 1)

/-- The two loops of `recompute_best`. -/
def findBest (s : SideBook) (isBid : Bool) : Option UInt32 :=
  let word := s.bestPrice.toNat / 64
  if isBid then scanBid s word else scanAsk s (kBitmapWords - word) word

def recomputeBest (s : SideBook) (isBid : Bool) : Option SideBook := do
  let best ← findBest s isBid
  -- the source has no such test: a price above the last level is an error here
  guard (best.toNat ≤ kPriceLevels)
  return { s with bestPrice := best }

def setQty (s : SideBook) (price qty : UInt32) : Option SideBook := do
  let levels ← write s.qty price.toNat qty
  return { s with qty := levels }

/-- `add_level` up to the bitmap. -/
def raiseLevel (s : SideBook) (price qty : UInt32) : Option SideBook := do
  let level ← read s.qty price.toNat
  let wasEmpty := level == 0
  let s ← setQty s price (level + qty)
  if wasEmpty then setOccupied s price true else return s

def addLevel (s : SideBook) (price qty : UInt32) (isBid : Bool) : Option SideBook := do
  let s ← raiseLevel s price qty
  return if s.bestPrice = 0 then { s with bestPrice := price }
    else if isBid then
      if s.bestPrice < price then { s with bestPrice := price } else s
    else if price < s.bestPrice then { s with bestPrice := price }
    else s

/-- `remove_level` up to the bitmap. -/
def lowerLevel (s : SideBook) (price qty : UInt32) : Option SideBook := do
  let level ← read s.qty price.toNat
  let s ← setQty s price (if level ≤ qty then 0 else level - qty)
  let left ← read s.qty price.toNat
  if left = 0 then setOccupied s price false else return s

def removeLevel (s : SideBook) (price qty : UInt32) (isBid : Bool) : Option SideBook := do
  let s ← lowerLevel s price qty
  let left ← read s.qty price.toNat
  if price = s.bestPrice ∧ left = 0 then recomputeBest s isBid else return s

def bestQty (s : SideBook) : Option UInt32 :=
  if s.bestPrice ≠ 0 then read s.qty s.bestPrice.toNat else some 0

/-! ## The order pool -/

/-- `order_slot`. -/
def orderIndex (orderId : UInt64) : Nat :=
  let x := orderId
  let x := x ^^^ (x >>> 30)
  let x := x * 0xbf58476d1ce4e5b9
  let x := x ^^^ (x >>> 27)
  let x := x * 0x94d049bb133111eb
  let x := x ^^^ (x >>> 31)
  x.toNat &&& (kOrderPool - 1)

/-- `(idx + 1) & (kOrderPool - 1)`. -/
def nextIndex (idx : Nat) : Nat := (idx + 1) &&& (kOrderPool - 1)

/-- The search loop of `find_order` and `erase_order`. -/
def searchOrder (orders : Fin kOrderPool → OrderRecord) (orderId : UInt64) :
    Nat → Nat → Option (Option Nat)
  | 0, _ => some none
  | n + 1, idx => do
    let r ← read orders idx
    if r.state = 0 then return none
    else if r.state = 1 ∧ r.orderId = orderId then return some idx
    else searchOrder orders orderId n (nextIndex idx)

/-- The search loop of `insert_order`. -/
def searchFree (orders : Fin kOrderPool → OrderRecord) : Nat → Nat → Option (Option Nat)
  | 0, _ => some none
  | n + 1, idx => do
    let r ← read orders idx
    if r.state = 0 then return some idx else searchFree orders n (nextIndex idx)

def findOrder (p : OrderPool) (orderId : UInt64) : Option (Option Nat) :=
  searchOrder p.orders orderId kOrderPool (orderIndex orderId)

def insertOrder (p : OrderPool) (orderId : UInt64) : Option (OrderPool × Option Nat) :=
  if kOrderPool ≤ p.liveCount then return (p, none)
  else do
    match ← findOrder p orderId with
    | some existing => return (p, some existing)
    | none =>
      match ← searchFree p.orders kOrderPool (orderIndex orderId) with
      | some idx =>
        let orders ← write p.orders idx { orderId := orderId, state := 1 }
        return ({ orders := orders, liveCount := p.liveCount + 1 }, some idx)
      | none => return (p, none)

/-- The variables of the backshift loop. -/
structure Backshift where
  orders : Fin kOrderPool → OrderRecord
  hole : Nat
  cur : Nat

def CanMove (hole cur home : Nat) : Prop :=
  if hole < cur then home ≤ hole ∨ cur < home else home ≤ hole ∧ cur < home

instance (hole cur home : Nat) : Decidable (CanMove hole cur home) :=
  inferInstanceAs
    (Decidable (if hole < cur then home ≤ hole ∨ cur < home else home ≤ hole ∧ cur < home))

/-- What a pass does with the entry `r` at the cursor: the table and the hole after it. -/
def moveBack (b : Backshift) (r : OrderRecord) : Option ((Fin kOrderPool → OrderRecord) × Nat) :=
  if CanMove b.hole b.cur (orderIndex r.orderId) then do
    let orders ← write b.orders b.hole r
    return (orders, b.cur)
  else return (b.orders, b.hole)

/-- One pass of the backshift loop; an access outside the pool leaves it without a result. -/
def backshiftPass (found : Nat) (b : Backshift) :
    Pass Backshift (Option ((Fin kOrderPool → OrderRecord) × Nat)) :=
  match read b.orders b.cur with
  | none => .done none
  | some r =>
    if r.state = 1 then
      match moveBack b r with
      | none => .done none
      | some moved =>
        if nextIndex b.cur = found then .done (some moved)
        else .again ⟨moved.1, moved.2, nextIndex b.cur⟩
    else .done (some (b.orders, b.hole))

/-- The backshift loop, with one pass for every slot at most. -/
def backshift (orders : Fin kOrderPool → OrderRecord) (found : Nat) :
    Option ((Fin kOrderPool → OrderRecord) × Nat) :=
  (iterate (backshiftPass found) kOrderPool ⟨orders, found, nextIndex found⟩).join

def eraseOrder (p : OrderPool) (orderId : UInt64) : Option OrderPool := do
  match ← findOrder p orderId with
  | none => return p
  | some found =>
    let (shifted, hole) ← backshift p.orders found
    let orders ← write shifted hole {}
    return { orders := orders, liveCount := if 0 < p.liveCount then p.liveCount - 1 else p.liveCount }

def writeFields (p : OrderPool) (idx : Nat) (o : OrderFields) : Option OrderPool := do
  let r ← read p.orders idx
  let orders ← write p.orders idx { r with
    symbolId := o.symbolId
    side := o.side
    price := o.price
    qty := o.qty }
  return { p with orders := orders }

/-! ## The book builder -/

def setBook (b : BookBuilder) (symbolId : UInt32) (sb : SymbolBook) : Option BookBuilder := do
  let books ← write b.books symbolId.toNat sb
  return { b with books := books }

def updateSide (b : BookBuilder) (symbolId : UInt32) (side : Side)
    (f : SideBook → Option SideBook) : Option BookBuilder := do
  let sb ← read b.books symbolId.toNat
  let s ← f (sb.side side)
  setBook b symbolId (sb.setSide side s)

def addLevelAt (b : BookBuilder) (symbolId : UInt32) (side : Side) (price qty : UInt32) :
    Option BookBuilder :=
  updateSide b symbolId side fun s => addLevel s price qty (isBuy side)

def removeLevelAt (b : BookBuilder) (symbolId : UInt32) (side : Side) (price qty : UInt32) :
    Option BookBuilder :=
  updateSide b symbolId side fun s => removeLevel s price qty (isBuy side)

def makeTick (b : BookBuilder) (symbolId : UInt32) (seq tsNs : UInt64) (cause : MsgType) :
    Option NormalizedTick :=
  if symbolId.toNat < kMaxSymbols then do
    let sb ← read b.books symbolId.toNat
    let bidQty ← bestQty sb.bid
    let askQty ← bestQty sb.ask
    return {
      symbolId := symbolId
      bidPrice := sb.bid.bestPrice
      bidQty := bidQty
      askPrice := sb.ask.bestPrice
      askQty := askQty
      lastPrice := sb.lastPrice
      lastQty := sb.lastQty
      seq := seq
      tsNs := tsNs
      cause := cause }
  else return { symbolId := symbolId, seq := seq, tsNs := tsNs, cause := cause }

def top (b : BookBuilder) (symbolId : UInt32) : Option TopOfBook :=
  if kMaxSymbols ≤ symbolId.toNat then return { symbolId := symbolId }
  else do
    let sb ← read b.books symbolId.toNat
    let bidQty ← bestQty sb.bid
    let askQty ← bestQty sb.ask
    return {
      symbolId := symbolId
      bidPrice := sb.bid.bestPrice
      bidQty := bidQty
      askPrice := sb.ask.bestPrice
      askQty := askQty
      valid := decide (0 < sb.bid.bestPrice) || decide (0 < sb.ask.bestPrice) }

/-- The two queries for the quantity of a level, which differ in the side they read. -/
def qtyAt (b : BookBuilder) (symbolId : UInt32) (side : Side) (price : UInt32) : Option UInt32 :=
  if kMaxSymbols ≤ symbolId.toNat ∨ ¬ validPrice price then return 0
  else do
    let sb ← read b.books symbolId.toNat
    read (sb.side side).qty price.toNat

def bidQtyAt (b : BookBuilder) (symbolId price : UInt32) : Option UInt32 :=
  qtyAt b symbolId .buy price

def askQtyAt (b : BookBuilder) (symbolId price : UInt32) : Option UInt32 :=
  qtyAt b symbolId .sell price

def tickIfChanged (b : BookBuilder) (before after : TopOfBook) (symbolId : UInt32) (hdr : Header)
    (cause : MsgType) : Option (Option NormalizedTick) :=
  if sameTop before after then return none
  else do
    let tick ← makeTick b symbolId hdr.seq hdr.tsNs cause
    return some tick

def markLive (b : BookBuilder) (idx : Nat) : Option BookBuilder := do
  let r ← read b.orders idx
  let orders ← write b.orders idx { r with state := 1 }
  return { b with orders := orders }

def dropReplaced (b : BookBuilder) (idx : Nat) (orderId : UInt64) : Option BookBuilder := do
  let r ← read b.orders idx
  if r.state = 1 ∧ 0 < r.qty ∧ r.orderId = orderId then
    removeLevelAt b r.symbolId r.side r.price r.qty
  else return b

def onAdd (b : BookBuilder) (m : AddOrder) : Option (BookBuilder × Option NormalizedTick) :=
  if acceptable m.symbolId m.price m.qty then do
    match ← insertOrder b.toOrderPool m.orderId with
    | (pool, none) => return ({ b with toOrderPool := pool }, none)
    | (pool, some idx) =>
      let b ← dropReplaced { b with toOrderPool := pool } idx m.orderId
      let pool ← writeFields b.toOrderPool idx ⟨m.symbolId, m.side, m.price, m.qty⟩
      let b ← markLive { b with toOrderPool := pool } idx
      let before ← top b m.symbolId
      let b ← addLevelAt b m.symbolId m.side m.price m.qty
      let after ← top b m.symbolId
      let tick ← tickIfChanged b before after m.symbolId m.hdr .addOrder
      return (b, tick)
  else return (b, none)

def onModify (b : BookBuilder) (m : ModifyOrder) : Option (BookBuilder × Option NormalizedTick) := do
  match ← findOrder b.toOrderPool m.orderId with
  | none => return (b, none)
  | some idx =>
    if acceptable m.symbolId m.price m.qty then
      let r ← read b.orders idx
      let before ← top b r.symbolId
      let b ← removeLevelAt b r.symbolId r.side r.price r.qty
      let pool ← writeFields b.toOrderPool idx ⟨m.symbolId, m.side, m.price, m.qty⟩
      let b ← addLevelAt { b with toOrderPool := pool } m.symbolId m.side m.price m.qty
      let after ← top b m.symbolId
      let tick ← tickIfChanged b before after m.symbolId m.hdr .modifyOrder
      return (b, tick)
    else return (b, none)

def onDelete (b : BookBuilder) (m : DeleteOrder) : Option (BookBuilder × Option NormalizedTick) := do
  match ← findOrder b.toOrderPool m.orderId with
  | none => return (b, none)
  | some idx =>
    let r ← read b.orders idx
    let before ← top b r.symbolId
    let b ← removeLevelAt b r.symbolId r.side r.price r.qty
    let pool ← eraseOrder b.toOrderPool m.orderId
    let after ← top { b with toOrderPool := pool } r.symbolId
    let tick ← tickIfChanged { b with toOrderPool := pool } before after r.symbolId m.hdr .deleteOrder
    return ({ b with toOrderPool := pool }, tick)

def onTrade (b : BookBuilder) (m : Trade) : Option (BookBuilder × Option NormalizedTick) :=
  if acceptable m.symbolId m.price m.qty then do
    let sb ← read b.books m.symbolId.toNat
    let b ← setBook b m.symbolId { sb with lastPrice := m.price, lastQty := m.qty }
    let tick ← makeTick b m.symbolId m.hdr.seq m.hdr.tsNs .trade
    return (b, some tick)
  else return (b, none)

def handle (b : BookBuilder) : BookMsg → Option (BookBuilder × Option NormalizedTick)
  | .add m => onAdd b m
  | .modify m => onModify b m
  | .delete m => onDelete b m
  | .trade m => onTrade b m

/-- The book after a list of calls on a fresh builder. -/
def run (msgs : List BookMsg) : Option BookBuilder :=
  msgs.foldlM (fun b m => (handle b m).map Prod.fst) {}

/-! ## A side, unchecked -/

section Side

variable {s : SideBook} {price qty : UInt32} {isBid : Bool}

theorem word_lt {p : Nat} (h : p ≤ kPriceLevels) : p / 64 < kBitmapWords :=
  Nat.div_lt_of_lt_mul (SideBook.lt_words h)

theorem read_qty (s : SideBook) (h : price.toNat ≤ kPriceLevels) :
    read s.qty price.toNat = some (s.qtyAt price) := read_ofNat _ (Nat.lt_succ_of_le h)

theorem write_qty (s : SideBook) (h : price.toNat ≤ kPriceLevels) (v : UInt32) :
    write s.qty price.toNat v = some (s.setQty price v).qty :=
  write_ofNat _ (Nat.lt_succ_of_le h) v

theorem setOccupied_eq (h : price.toNat ≤ kPriceLevels) (on : Bool) :
    setOccupied s price on = some (s.setOccupied price on) := by
  unfold setOccupied
  simp only [read_ofNat _ (word_lt h), write_ofNat _ (word_lt h), Option.bind_eq_bind,
    Option.bind_some]
  rfl

theorem bidBits_eq {word : Nat} (h : word < kBitmapWords) : bidBits s word = some (s.bidBits word) := by
  unfold bidBits SideBook.bidBits
  simp only [read_ofNat _ h, Option.bind_eq_bind, Option.bind_some]
  split_ifs <;> rfl

theorem askBits_eq {word : Nat} (h : word < kBitmapWords) : askBits s word = some (s.askBits word) := by
  unfold askBits SideBook.askBits
  simp only [read_ofNat _ h, Option.bind_eq_bind, Option.bind_some]
  split_ifs <;> rfl

/-- The downward scan starts in the bitmap and stays there. -/
theorem scanBid_eq {word : Nat} (h : word < kBitmapWords) : scanBid s word = some (s.scanBid word) := by
  induction word with
  | zero =>
    unfold scanBid SideBook.scanBid
    simp only [bidBits_eq h, Option.bind_eq_bind, Option.bind_some]
    split_ifs <;> rfl
  | succ word ih =>
    unfold scanBid SideBook.scanBid
    simp only [bidBits_eq h, Option.bind_eq_bind, Option.bind_some]
    split_ifs
    · rfl
    · exact ih (Nat.lt_of_succ_lt h)

/-- The upward scan ends with the last word. -/
theorem scanAsk_eq {n word : Nat} (h : word + n = kBitmapWords) :
    scanAsk s n word = some (s.scanAsk n word) := by
  induction n generalizing word with
  | zero => rfl
  | succ n ih =>
    unfold scanAsk SideBook.scanAsk
    simp only [askBits_eq (by omega : word < kBitmapWords), Option.bind_eq_bind, Option.bind_some]
    split_ifs
    · rfl
    · exact ih (by omega)

theorem findBest_eq (h : s.bestPrice.toNat ≤ kPriceLevels) :
    findBest s isBid = some (s.recomputeBest isBid).bestPrice := by
  have hword := word_lt h
  cases isBid
  · exact scanAsk_eq (by omega)
  · exact scanBid_eq hword

theorem recomputeBest_eq (h : s.bestPrice.toNat ≤ kPriceLevels)
    (hfound : (s.recomputeBest isBid).bestPrice.toNat ≤ kPriceLevels) :
    recomputeBest s isBid = some (s.recomputeBest isBid) := by
  unfold recomputeBest
  simp only [findBest_eq h, Option.bind_eq_bind, Option.bind_some, guard, if_pos hfound]
  rfl

theorem setQty_eq (h : price.toNat ≤ kPriceLevels) (v : UInt32) :
    setQty s price v = some (s.setQty price v) := by
  unfold setQty
  rw [write_qty s h]
  rfl

theorem addLevel_eq (h : price.toNat ≤ kPriceLevels) :
    addLevel s price qty isBid = some (s.addLevel price qty isBid) := by
  have hraise : raiseLevel s price qty
      = some (if s.qtyAt price == 0 then (s.setQty price (s.qtyAt price + qty)).setOccupied price true
        else s.setQty price (s.qtyAt price + qty)) := by
    unfold raiseLevel
    simp only [read_qty s h, setQty_eq h, setOccupied_eq h, Option.bind_eq_bind, Option.bind_some]
    split_ifs <;> rfl
  unfold addLevel
  rw [hraise]
  rfl

theorem lowerLevel_eq (h : price.toNat ≤ kPriceLevels) :
    lowerLevel s price qty = some (s.lowered price qty) := by
  have hleft : (if s.qtyAt price ≤ qty then 0 else s.qtyAt price - qty) = s.remaining price qty := rfl
  rw [SideBook.lowered_eq]
  unfold lowerLevel
  simp only [read_qty _ h, hleft, setQty_eq h, setOccupied_eq h, Option.bind_eq_bind, Option.bind_some,
    SideBook.qtyAt_setQty]
  split_ifs <;> rfl

theorem best_le (h : s.Tidy isBid) : s.bestPrice.toNat ≤ kPriceLevels := by
  by_cases hb : s.bestPrice = 0
  · rw [hb]
    exact Nat.zero_le _
  · exact (h.best_bounds hb).2

/-- What a removal searches for is a price of the book, because the side is tidy again. -/
theorem removeLevel_eq (ht : s.Tidy isBid) (h : price.toNat ≤ kPriceLevels) :
    removeLevel s price qty isBid = some (s.removeLevel price qty isBid) := by
  have hbest : (s.removeLevel price qty isBid).bestPrice.toNat ≤ kPriceLevels :=
    best_le (ht.removeLevel h)
  rw [SideBook.removeLevel_eq] at hbest ⊢
  unfold removeLevel
  simp only [lowerLevel_eq h, read_qty _ h, Option.bind_eq_bind, Option.bind_some]
  split_ifs at hbest ⊢ with hcase
  · refine recomputeBest_eq ?_ hbest
    rw [← hcase.1]
    exact h
  · rfl

theorem bestQty_eq (h : s.Tidy isBid) : bestQty s = some (BookBuilder.bestQty s) := by
  unfold bestQty BookBuilder.bestQty
  split_ifs with hb
  · exact read_qty s (h.best_bounds hb).2
  · rfl

end Side

/-! ## The pool, unchecked -/

section Pool

variable {p : OrderPool} {orderId : UInt64}

/-- The mask keeps every home slot in the pool. -/
theorem orderIndex_eq (orderId : UInt64) : orderIndex orderId = (orderSlot orderId).val := by
  have hlt : orderIndex orderId < kOrderPool := Nat.lt_of_le_of_lt Nat.and_le_right (by decide)
  exact (Nat.mod_eq_of_lt hlt).symm

theorem nextIndex_eq (idx : Fin kOrderPool) : nextIndex idx.val = (idx + 1).val :=
  (slot_succ_val idx).symm

theorem searchOrder_eq (orders : Fin kOrderPool → OrderRecord) (orderId : UInt64) (n : Nat)
    (idx : Fin kOrderPool) :
    searchOrder orders orderId n idx.val
      = some ((probe (OrderPool.visitOrder orders orderId) n idx).join.map Fin.val) := by
  induction n generalizing idx with
  | zero => rfl
  | succ n ih =>
    unfold searchOrder probe OrderPool.visitOrder
    simp only [read_val, Option.bind_eq_bind, Option.bind_some]
    split_ifs
    · rfl
    · rfl
    · rw [nextIndex_eq]
      exact ih (idx + 1)

theorem searchFree_eq (orders : Fin kOrderPool → OrderRecord) (n : Nat) (idx : Fin kOrderPool) :
    searchFree orders n idx.val = some ((probe (OrderPool.visitFree orders) n idx).map Fin.val) := by
  induction n generalizing idx with
  | zero => rfl
  | succ n ih =>
    unfold searchFree probe OrderPool.visitFree
    simp only [read_val, Option.bind_eq_bind, Option.bind_some]
    split_ifs
    · rfl
    · rw [nextIndex_eq]
      exact ih (idx + 1)

theorem findOrder_eq : findOrder p orderId = some ((p.findOrder orderSlot orderId).map Fin.val) := by
  unfold findOrder
  rw [orderIndex_eq]
  exact searchOrder_eq p.orders orderId kOrderPool (orderSlot orderId)

theorem insertOrder_eq : insertOrder p orderId
    = some ((p.insertOrder orderSlot orderId).1,
        (p.insertOrder orderSlot orderId).2.map Fin.val) := by
  unfold insertOrder OrderPool.insertOrder
  split_ifs with hfull
  · rfl
  · rw [findOrder_eq]
    cases p.findOrder orderSlot orderId with
    | some existing => simp only [Option.map_some, Option.bind_eq_bind, Option.bind_some, Option.pure_def]
    | none =>
      rw [orderIndex_eq, searchFree_eq]
      cases probe (OrderPool.visitFree p.orders) kOrderPool (orderSlot orderId) with
      | none => simp only [Option.map_none, Option.bind_eq_bind, Option.bind_some, Option.pure_def]
      | some idx =>
        simp only [Option.map_none, Option.map_some, Option.bind_eq_bind, Option.bind_some, write_val,
          Option.pure_def]

/-- The variables of the loop with their plain indices. -/
def Backshift.ofFin (b : OrderPool.Backshift) : Backshift := ⟨b.orders, b.hole.val, b.cur.val⟩

theorem moveBack_eq (b : OrderPool.Backshift) :
    moveBack (.ofFin b) (b.orders b.cur)
      = some (if OrderPool.CanMove b.hole b.cur (orderSlot (b.orders b.cur).orderId) then
          (Function.update b.orders b.hole (b.orders b.cur), b.cur.val)
        else (b.orders, b.hole.val)) := by
  unfold moveBack Backshift.ofFin
  rw [orderIndex_eq]
  have hmove : CanMove b.hole.val b.cur.val (orderSlot (b.orders b.cur).orderId).val ↔
      OrderPool.CanMove b.hole b.cur (orderSlot (b.orders b.cur).orderId) := Iff.rfl
  simp only [hmove, write_val, Option.bind_eq_bind, Option.bind_some]
  split_ifs <;> rfl

/-- A pass with plain indices is the pass of the pool. -/
theorem backshiftPass_eq (found : Fin kOrderPool) (b : OrderPool.Backshift) :
    backshiftPass found.val (.ofFin b)
      = (OrderPool.backshiftPass orderSlot found b).map Backshift.ofFin
          (fun r => some (r.1, r.2.val)) := by
  have hread : read (Backshift.ofFin b).orders (Backshift.ofFin b).cur = some (b.orders b.cur) :=
    read_val _ _
  have hnext : nextIndex (Backshift.ofFin b).cur = (b.cur + 1).val := nextIndex_eq b.cur
  have hfound : (b.cur + 1).val = found.val ↔ b.cur + 1 = found := Fin.ext_iff.symm
  unfold backshiftPass OrderPool.backshiftPass
  rw [hread]
  simp only [moveBack_eq, hnext, hfound]
  split_ifs <;> rfl

theorem backshift_eq (orders : Fin kOrderPool → OrderRecord) (found : Fin kOrderPool) :
    backshift orders found.val
      = some ((OrderPool.backshift orderSlot orders found).1,
          (OrderPool.backshift orderSlot orders found).2.val) := by
  have hrun := iterate_eq_run (OrderPool.backshiftPass_variant orderSlot found)
    { orders := orders, hole := found, cur := found + 1 }
  -- no more passes than slots
  have hpos : 0 < kOrderPool := by decide
  have hround := iterate_mono hrun (show _ ≤ kOrderPool by dsimp only; omega)
  have hsim := iterate_map (backshiftPass_eq found) kOrderPool
    { orders := orders, hole := found, cur := found + 1 }
  unfold backshift
  rw [nextIndex_eq]
  exact (congrArg Option.join (hsim.trans (congrArg _ hround)))

theorem eraseOrder_eq : eraseOrder p orderId = some (p.eraseOrder orderSlot orderId) := by
  unfold eraseOrder OrderPool.eraseOrder
  rw [findOrder_eq]
  cases p.findOrder orderSlot orderId with
  | none => rfl
  | some found =>
    simp only [Option.map_some, Option.bind_eq_bind, Option.bind_some, backshift_eq, write_val]
    rfl

theorem writeFields_eq (p : OrderPool) (idx : Fin kOrderPool) (o : OrderFields) :
    writeFields p idx.val o = some (p.writeFields idx o) := by
  unfold writeFields
  simp only [read_val, write_val, Option.bind_eq_bind, Option.bind_some]
  rfl

end Pool

/-! ## The book builder, unchecked -/

section Builder

variable {b : BookBuilder} {S : BookSpec} {symbolId price qty : UInt32} {side : Side}

theorem read_book (b : BookBuilder) (h : symbolId.toNat < kMaxSymbols) :
    read b.books symbolId.toNat = some (b.book symbolId) := read_ofNat _ h

theorem setBook_eq (h : symbolId.toNat < kMaxSymbols) (sb : SymbolBook) :
    setBook b symbolId sb = some (b.setBook symbolId sb) := by
  unfold setBook
  rw [write_ofNat _ h]
  rfl

theorem updateSide_eq {f : SideBook → Option SideBook} {g : SideBook → SideBook}
    (h : symbolId.toNat < kMaxSymbols)
    (hf : f ((b.book symbolId).side side) = some (g ((b.book symbolId).side side))) :
    updateSide b symbolId side f = some (b.updateSide symbolId side g) := by
  unfold updateSide
  simp only [read_book b h, hf, setBook_eq h, Option.bind_eq_bind, Option.bind_some]
  rfl

theorem addLevelAt_eq {o : OrderFields} (ho : ValidOrder o) :
    addLevelAt b o.symbolId o.side o.price o.qty
      = some (b.addLevelAt o.symbolId o.side o.price o.qty) :=
  updateSide_eq ho.1 (addLevel_eq ho.2.2.1)

theorem removeLevelAt_eq (h : b.AllTidy) {o : OrderFields} (ho : ValidOrder o) :
    removeLevelAt b o.symbolId o.side o.price o.qty
      = some (b.removeLevelAt o.symbolId o.side o.price o.qty) :=
  updateSide_eq ho.1 (removeLevel_eq (h o.symbolId ho.1 o.side) ho.2.2.1)

/-- The two quantities at the top of a book. -/
theorem bestQty_book (h : b.AllTidy) (hsym : symbolId.toNat < kMaxSymbols) :
    bestQty (b.book symbolId).bid = some (BookBuilder.bestQty (b.book symbolId).bid) ∧
      bestQty (b.book symbolId).ask = some (BookBuilder.bestQty (b.book symbolId).ask) :=
  ⟨bestQty_eq (h symbolId hsym .buy), bestQty_eq (h symbolId hsym .sell)⟩

theorem makeTick_eq (h : b.AllTidy) (symbolId : UInt32) (seq tsNs : UInt64) (cause : MsgType) :
    makeTick b symbolId seq tsNs cause = some (b.makeTick symbolId seq tsNs cause) := by
  unfold makeTick BookBuilder.makeTick
  split_ifs with hsym
  · obtain ⟨hbid, hask⟩ := bestQty_book h hsym
    simp only [read_book b hsym, hbid, hask, Option.bind_eq_bind, Option.bind_some]
    rfl
  · rfl

theorem top_eq (h : b.AllTidy) (symbolId : UInt32) : top b symbolId = some (b.top symbolId) := by
  unfold top BookBuilder.top
  split_ifs with hsym
  · rfl
  · have hlt := Nat.lt_of_not_le hsym
    obtain ⟨hbid, hask⟩ := bestQty_book h hlt
    simp only [read_book b hlt, hbid, hask, Option.bind_eq_bind, Option.bind_some]
    rfl

theorem tickIfChanged_eq (h : b.AllTidy) (before after : TopOfBook) (symbolId : UInt32)
    (hdr : Header) (cause : MsgType) :
    tickIfChanged b before after symbolId hdr cause
      = some (b.tickIfChanged before after symbolId hdr cause) := by
  unfold tickIfChanged BookBuilder.tickIfChanged
  rw [makeTick_eq h]
  split_ifs <;> rfl

/-- What the guard of a query lets through is in range. -/
theorem qtyAt_eq (b : BookBuilder) (symbolId : UInt32) (side : Side) (price : UInt32) :
    qtyAt b symbolId side price
      = some (if kMaxSymbols ≤ symbolId.toNat ∨ ¬ validPrice price then 0
          else ((b.book symbolId).side side).qtyAt price) := by
  unfold qtyAt
  split_ifs with hguard
  · rfl
  · rw [not_or, not_not, BookBuilder.validPrice_iff] at hguard
    obtain ⟨hsym, -, hprice⟩ := hguard
    simp only [read_book b (Nat.lt_of_not_le hsym), read_qty _ hprice, Option.bind_eq_bind,
      Option.bind_some]

theorem markLive_eq (b : BookBuilder) (idx : Fin kOrderPool) :
    markLive b idx.val = some (b.markLive idx) := by
  unfold markLive
  simp only [read_val, write_val, Option.bind_eq_bind, Option.bind_some]
  rfl

theorem dropReplaced_eq (h : b.AllTidy) {idx : Fin kOrderPool} (orderId : UInt64)
    (hvalid : 0 < (b.orders idx).qty → ValidOrder (b.orders idx).fields) :
    dropReplaced b idx.val orderId = some (b.dropReplaced idx orderId) ∧
      (b.dropReplaced idx orderId).AllTidy := by
  unfold dropReplaced BookBuilder.dropReplaced
  simp only [read_val, Option.bind_eq_bind, Option.bind_some]
  split_ifs with hlive
  · have ho := hvalid hlive.2.1
    exact ⟨removeLevelAt_eq h ho, h.withdraw ho⟩
  · exact ⟨rfl, h⟩

/-- The record that `insert_order` hands out is a live one or a blank one. -/
theorem insertOrder_record (h : b.Holds S) {orderId : UInt64} {pool : OrderPool}
    {idx : Fin kOrderPool}
    (hinsert : b.toOrderPool.insertOrder orderSlot orderId = (pool, some idx))
    (hqty : 0 < (pool.orders idx).qty) : ValidOrder (pool.orders idx).fields := by
  rcases Nat.lt_or_ge S.orders.keys.card 65536 with hroom | hfull
  · cases hl : S.orders.lookup orderId with
    | none =>
      obtain ⟨slot, fresh, -, hfresh, heq, -⟩ := h.pool.insert_new hl hroom
      rw [heq, Prod.mk.injEq, Option.some_inj] at hinsert
      obtain ⟨rfl, rfl⟩ := hinsert
      -- the new record has no quantity yet
      rw [hfresh] at hqty
      dsimp only at hqty
      rw [Function.update_self] at hqty
      exact absurd hqty (show ¬ (0 : UInt32) < 0 by decide)
    | some o =>
      obtain ⟨slot, heq, hfind⟩ := h.pool.insert_live hl hroom
      rw [heq, Prod.mk.injEq, Option.some_inj] at hinsert
      obtain ⟨rfl, rfl⟩ := hinsert
      obtain ⟨o', hl', hrec⟩ := h.pool.find_some hfind
      rw [hrec]
      exact h.valid _ _ hl'
  · rw [h.pool.insert_full orderId hfull] at hinsert
    cases hinsert

/-- A record that was found has fields that were tested when they were stored. -/
theorem findOrder_record (h : b.Holds S) {orderId : UInt64} {idx : Fin kOrderPool}
    (hfind : b.findOrder orderSlot orderId = some idx) : ValidOrder (b.orders idx).fields := by
  obtain ⟨o, hl, hrec⟩ := h.pool.find_some hfind
  rw [hrec]
  exact h.valid _ _ hl

/-- Taking a found order out of its level: in range, and the sides stay tidy whatever is written to the
pool afterwards. -/
theorem removeLevelAt_found (ht : b.AllTidy) (h : b.Holds S) {orderId : UInt64}
    {idx : Fin kOrderPool} (hfind : b.findOrder orderSlot orderId = some idx) :
    removeLevelAt b (b.orders idx).symbolId (b.orders idx).side (b.orders idx).price
        (b.orders idx).qty
      = some (b.removeLevelAt (b.orders idx).symbolId (b.orders idx).side (b.orders idx).price
          (b.orders idx).qty) ∧
      ∀ pool, AllTidy { b.removeLevelAt (b.orders idx).symbolId (b.orders idx).side
        (b.orders idx).price (b.orders idx).qty with toOrderPool := pool } :=
  have hr := findOrder_record h hfind
  ⟨removeLevelAt_eq ht hr, fun _ => ht.withdraw hr⟩

/-! ## The message functions -/

/-- The end of `on_add` and of `on_modify`. -/
theorem addLevelAt_tick (h : b.AllTidy) {o : OrderFields} (ho : ValidOrder o) (before : TopOfBook)
    (hdr : Header) (cause : MsgType) :
    (do
      let b ← addLevelAt b o.symbolId o.side o.price o.qty
      let after ← top b o.symbolId
      let tick ← tickIfChanged b before after o.symbolId hdr cause
      return (b, tick))
    = some (b.addLevelAt o.symbolId o.side o.price o.qty,
        (b.addLevelAt o.symbolId o.side o.price o.qty).tickIfChanged before
          ((b.addLevelAt o.symbolId o.side o.price o.qty).top o.symbolId) o.symbolId hdr cause) := by
  have hadd : (b.addLevelAt o.symbolId o.side o.price o.qty).AllTidy := h.deposit ho b.toOrderPool
  simp only [addLevelAt_eq ho, top_eq hadd, tickIfChanged_eq hadd, Option.bind_eq_bind,
    Option.bind_some, Option.pure_def]

theorem top_addLevelAt_tick (h : b.AllTidy) {o : OrderFields} (ho : ValidOrder o) (hdr : Header)
    (cause : MsgType) :
    (do
      let before ← top b o.symbolId
      let b ← addLevelAt b o.symbolId o.side o.price o.qty
      let after ← top b o.symbolId
      let tick ← tickIfChanged b before after o.symbolId hdr cause
      return (b, tick))
    = some (b.addLevelAt o.symbolId o.side o.price o.qty,
        (b.addLevelAt o.symbolId o.side o.price o.qty).tickIfChanged (b.top o.symbolId)
          ((b.addLevelAt o.symbolId o.side o.price o.qty).top o.symbolId) o.symbolId hdr cause) := by
  rw [top_eq h]
  exact addLevelAt_tick h ho _ hdr cause

theorem onAdd_eq (ht : b.AllTidy) (h : b.Holds S) (m : AddOrder) : onAdd b m = some (b.onAdd m) := by
  unfold onAdd BookBuilder.onAdd
  split_ifs with hacc
  · have ho : ValidOrder ⟨m.symbolId, m.side, m.price, m.qty⟩ := BookBuilder.acceptable_iff.mp hacc
    rw [insertOrder_eq]
    rcases hinsert : b.toOrderPool.insertOrder orderSlot m.orderId with ⟨pool, _ | idx⟩
    · rfl
    · have hpool : AllTidy { b with toOrderPool := pool } := ht
      obtain ⟨hdrop, hdropped⟩ :=
        dropReplaced_eq hpool m.orderId (insertOrder_record h hinsert)
      -- writing to the pool does not touch the levels
      have hmarked : ∀ o : OrderFields, AllTidy (BookBuilder.markLive
          { BookBuilder.dropReplaced { b with toOrderPool := pool } idx m.orderId with
            toOrderPool := OrderPool.writeFields (BookBuilder.dropReplaced
              { b with toOrderPool := pool } idx m.orderId).toOrderPool idx o } idx) :=
        fun _ => hdropped
      simp only [Option.map_some, Option.bind_eq_bind, Option.bind_some, hdrop, writeFields_eq,
        markLive_eq]
      exact top_addLevelAt_tick (hmarked _) ho m.hdr .addOrder
  · rfl

theorem onModify_eq (ht : b.AllTidy) (h : b.Holds S) (m : ModifyOrder) :
    onModify b m = some (b.onModify m) := by
  unfold onModify BookBuilder.onModify
  rw [findOrder_eq]
  cases hfind : b.findOrder orderSlot m.orderId with
  | none => rfl
  | some idx =>
    simp only [Option.map_some, Option.bind_eq_bind, Option.bind_some]
    split_ifs with hacc
    · have ho : ValidOrder ⟨m.symbolId, m.side, m.price, m.qty⟩ := BookBuilder.acceptable_iff.mp hacc
      obtain ⟨hremove, hremoved⟩ := removeLevelAt_found ht h hfind
      simp only [read_val, top_eq ht, hremove, writeFields_eq, Option.bind_some]
      exact addLevelAt_tick (hremoved _) ho _ m.hdr .modifyOrder
    · rfl

theorem onDelete_eq (ht : b.AllTidy) (h : b.Holds S) (m : DeleteOrder) :
    onDelete b m = some (b.onDelete m) := by
  unfold onDelete BookBuilder.onDelete
  rw [findOrder_eq]
  cases hfind : b.findOrder orderSlot m.orderId with
  | none => rfl
  | some idx =>
    obtain ⟨hremove, hremoved⟩ := removeLevelAt_found ht h hfind
    simp only [Option.map_some, read_val, top_eq ht, hremove, eraseOrder_eq, top_eq (hremoved _),
      tickIfChanged_eq (hremoved _), Option.bind_eq_bind, Option.bind_some]
    rfl

theorem onTrade_eq (ht : b.AllTidy) (m : Trade) : onTrade b m = some (b.onTrade m) := by
  unfold onTrade BookBuilder.onTrade
  split_ifs with hacc
  · have ho : ValidOrder ⟨m.symbolId, m.side, m.price, m.qty⟩ := BookBuilder.acceptable_iff.mp hacc
    have htick := makeTick_eq (ht.setLast ho.1 m.price m.qty) m.symbolId m.hdr.seq m.hdr.tsNs .trade
    simp only [read_book b ho.1, setBook_eq ho.1, Option.bind_eq_bind, Option.bind_some] at htick ⊢
    rw [htick]
    rfl
  · rfl

theorem handle_eq (ht : b.AllTidy) (h : b.Holds S) (m : BookMsg) : handle b m = some (b.handle m) := by
  cases m with
  | add m => exact onAdd_eq ht h m
  | modify m => exact onModify_eq ht h m
  | delete m => exact onDelete_eq ht h m
  | trade m => exact onTrade_eq ht m

end Builder

/-! ## Whole runs -/

theorem run_eq (msgs : List BookMsg) : run msgs = some (runBook msgs) := by
  induction msgs using List.reverseRecOn with
  | nil => rfl
  | append_singleton pre m ih =>
    unfold run at ih ⊢
    rw [List.foldlM_append, ih, runBook_snoc]
    show ((handle (runBook pre) m).map Prod.fst).bind pure = _
    rw [handle_eq (runBook_tidy pre) (runBook_holds pre)]
    rfl

/-- A live record is an order of the abstract book. -/
theorem live_record {b : BookBuilder} {S : BookSpec} (h : b.Holds S) {idx : Fin kOrderPool}
    (hlive : (b.orders idx).state = 1) : ValidOrder (b.orders idx).fields := by
  have hkey : liveKey (b.orders idx) = some (b.orders idx).orderId := if_pos hlive
  exact h.valid _ _ ((h.pool.content _ _).mpr ⟨idx, OrderPool.eq_recordOf hkey⟩)

theorem books_eq (b : BookBuilder) (symbol : Fin kMaxSymbols) :
    (UInt32.ofNat symbol.val).toNat < kMaxSymbols ∧ b.books symbol = b.book (UInt32.ofNat symbol.val) := by
  have hlt : symbol.val < 32 := symbol.isLt
  have hval : (UInt32.ofNat symbol.val).toNat = symbol.val := by
    rw [UInt32.toNat_ofNat']
    omega
  constructor
  · rw [hval]
    exact symbol.isLt
  · unfold BookBuilder.book
    rw [hval, Fin.ofNat_val_eq_self]

/-- **No message can index outside the book.** After any calls with any field values, every access of
the calls and of the queries was in range: the checked functions return, and return what the unchecked
ones do.  (For `recompute_best` this says too that it never found a price above 4096.)  Every live record
has the fields of an order of the book, and every best price is one of its prices or 0. -/
theorem book_accesses_in_range (msgs : List BookMsg) :
    run msgs = some (runBook msgs) ∧
      (∀ m, handle (runBook msgs) m = some ((runBook msgs).handle m)) ∧
      (∀ symbolId, top (runBook msgs) symbolId = some ((runBook msgs).top symbolId)) ∧
      (∀ symbolId price,
        bidQtyAt (runBook msgs) symbolId price = some ((runBook msgs).bidQtyAt symbolId price) ∧
          askQtyAt (runBook msgs) symbolId price = some ((runBook msgs).askQtyAt symbolId price)) ∧
      (∀ idx, ((runBook msgs).orders idx).state = 1 →
        ((runBook msgs).orders idx).symbolId.toNat < 32 ∧
          1 ≤ ((runBook msgs).orders idx).price.toNat ∧
          ((runBook msgs).orders idx).price.toNat ≤ 4096 ∧
          0 < ((runBook msgs).orders idx).qty.toNat) ∧
      ∀ symbol side, (((runBook msgs).books symbol).side side).bestPrice.toNat ≤ 4096 := by
  have ht := runBook_tidy msgs
  have h := runBook_holds msgs
  refine ⟨run_eq msgs, handle_eq ht h, top_eq ht, ?_, ?_, ?_⟩
  · exact fun symbolId price => ⟨qtyAt_eq _ symbolId .buy price, qtyAt_eq _ symbolId .sell price⟩
  · exact fun idx hlive => live_record h hlive
  · intro symbol side
    obtain ⟨hsym, heq⟩ := books_eq (runBook msgs) symbol
    rw [heq]
    exact best_le (ht _ hsym side)

-- the check is there: a level that was never tested is out of range
example : (addLevel {} 4097 5 true).isNone = true := by decide

end MarketDataPipeline.Book.Checked
