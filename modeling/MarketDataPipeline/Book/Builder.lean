/-
# MarketDataPipeline.Book.Builder — the book builder.

`BookBuilder` of `book.hpp` with all its members and the public functions of `book.cpp`, statement by
statement.  A pointer to a record is the index of its slot, a reference to a side is a symbol and a
side, and the order in which the source reads `top`, changes a level and writes the record is kept:
`on_add` takes its "before" picture only after a replaced order has been removed, the other two take it
first.
-/
import MarketDataPipeline.Book.Levels
import MarketDataPipeline.Book.OrderPool

namespace MarketDataPipeline.Book

open MarketDataPipeline.Wire

/-! ## State -/

def kMaxSymbols : Nat := 32

instance : NeZero kMaxSymbols := ⟨by decide⟩

structure TopOfBook where
  symbolId : UInt32 := 0
  bidPrice : UInt32 := 0
  bidQty : UInt32 := 0
  askPrice : UInt32 := 0
  askQty : UInt32 := 0
  seq : UInt64 := 0
  tsNs : UInt64 := 0
  valid : Bool := false
  deriving DecidableEq, Repr

structure NormalizedTick where
  symbolId : UInt32 := 0
  bidPrice : UInt32 := 0
  bidQty : UInt32 := 0
  askPrice : UInt32 := 0
  askQty : UInt32 := 0
  lastPrice : UInt32 := 0
  lastQty : UInt32 := 0
  seq : UInt64 := 0
  tsNs : UInt64 := 0
  cause : MsgType := .heartbeat
  deriving DecidableEq, Repr

structure SymbolBook where
  bid : SideBook := {}
  ask : SideBook := {}
  lastPrice : UInt32 := 0
  lastQty : UInt32 := 0

structure BookBuilder extends OrderPool where
  books : Fin kMaxSymbols → SymbolBook := fun _ => {}

/-- The mixer of the source, masked to the pool. -/
def orderSlot (orderId : UInt64) : Fin kOrderPool :=
  let x := orderId
  let x := x ^^^ (x >>> 30)
  let x := x * 0xbf58476d1ce4e5b9
  let x := x ^^^ (x >>> 27)
  let x := x * 0x94d049bb133111eb
  let x := x ^^^ (x >>> 31)
  Fin.ofNat kOrderPool (x.toNat &&& (kOrderPool - 1))

/-- One of the two sides of a symbol's book. -/
def SymbolBook.side (sb : SymbolBook) : Side → SideBook
  | .buy => sb.bid
  | .sell => sb.ask

def SymbolBook.setSide (sb : SymbolBook) : Side → SideBook → SymbolBook
  | .buy, s => { sb with bid := s }
  | .sell, s => { sb with ask := s }

/-- `side == Side::Buy`. -/
def isBuy : Side → Bool
  | .buy => true
  | .sell => false

/-! ## Operations -/

namespace BookBuilder

/-- `books_[symbol_id]`. -/
def book (b : BookBuilder) (symbolId : UInt32) : SymbolBook :=
  b.books (Fin.ofNat kMaxSymbols symbolId.toNat)

def setBook (b : BookBuilder) (symbolId : UInt32) (sb : SymbolBook) : BookBuilder :=
  { b with books := Function.update b.books (Fin.ofNat kMaxSymbols symbolId.toNat) sb }

def validPrice (price : UInt32) : Bool := 1 ≤ price && price.toNat ≤ kPriceLevels

/-- The fields of a message that the book accepts: `m.symbol_id`, `m.price` and `m.qty`. -/
def acceptable (symbolId price qty : UInt32) : Bool :=
  !(decide (kMaxSymbols ≤ symbolId.toNat) || !validPrice price || qty == 0)

/-- A change to one side of one symbol, through a reference. -/
def updateSide (b : BookBuilder) (symbolId : UInt32) (side : Side) (f : SideBook → SideBook) :
    BookBuilder :=
  let sb := b.book symbolId
  b.setBook symbolId (sb.setSide side (f (sb.side side)))

def addLevelAt (b : BookBuilder) (symbolId : UInt32) (side : Side) (price qty : UInt32) :
    BookBuilder :=
  b.updateSide symbolId side fun s => s.addLevel price qty (isBuy side)

def removeLevelAt (b : BookBuilder) (symbolId : UInt32) (side : Side) (price qty : UInt32) :
    BookBuilder :=
  b.updateSide symbolId side fun s => s.removeLevel price qty (isBuy side)

/-- `best_price ? qty[best_price] : 0`. -/
def bestQty (s : SideBook) : UInt32 := if s.bestPrice ≠ 0 then s.qtyAt s.bestPrice else 0

def makeTick (b : BookBuilder) (symbolId : UInt32) (seq tsNs : UInt64) (cause : MsgType) :
    NormalizedTick :=
  let t : NormalizedTick := { symbolId := symbolId, seq := seq, tsNs := tsNs, cause := cause }
  if symbolId.toNat < kMaxSymbols then
    let sb := b.book symbolId
    { t with
      bidPrice := sb.bid.bestPrice
      bidQty := bestQty sb.bid
      askPrice := sb.ask.bestPrice
      askQty := bestQty sb.ask
      lastPrice := sb.lastPrice
      lastQty := sb.lastQty }
  else t

def top (b : BookBuilder) (symbolId : UInt32) : TopOfBook :=
  if kMaxSymbols ≤ symbolId.toNat then { symbolId := symbolId }
  else
    let sb := b.book symbolId
    { symbolId := symbolId
      bidPrice := sb.bid.bestPrice
      bidQty := bestQty sb.bid
      askPrice := sb.ask.bestPrice
      askQty := bestQty sb.ask
      valid := decide (0 < sb.bid.bestPrice) || decide (0 < sb.ask.bestPrice) }

def bidQtyAt (b : BookBuilder) (symbolId price : UInt32) : UInt32 :=
  if kMaxSymbols ≤ symbolId.toNat ∨ ¬ validPrice price then 0 else (b.book symbolId).bid.qtyAt price

def askQtyAt (b : BookBuilder) (symbolId price : UInt32) : UInt32 :=
  if kMaxSymbols ≤ symbolId.toNat ∨ ¬ validPrice price then 0 else (b.book symbolId).ask.qtyAt price

/-- The comparison of two pictures of the top of book. -/
def sameTop (before after : TopOfBook) : Bool :=
  before.bidPrice == after.bidPrice && before.bidQty == after.bidQty &&
    before.askPrice == after.askPrice && before.askQty == after.askQty

/-- `rec->state = 1`. -/
def markLive (b : BookBuilder) (idx : Fin kOrderPool) : BookBuilder :=
  let marked : OrderRecord := { b.orders idx with state := 1 }
  { b with orders := Function.update b.orders idx marked }

/-- A tick if the two pictures differ. -/
def tickIfChanged (b : BookBuilder) (before after : TopOfBook) (symbolId : UInt32) (hdr : Header)
    (cause : MsgType) : Option NormalizedTick :=
  if sameTop before after then none else some (b.makeTick symbolId hdr.seq hdr.tsNs cause)

/-- Removing a replaced order from its level: the first `if` of `on_add` after the insertion. -/
def dropReplaced (b : BookBuilder) (idx : Fin kOrderPool) (orderId : UInt64) : BookBuilder :=
  let r := b.orders idx
  if r.state = 1 ∧ 0 < r.qty ∧ r.orderId = orderId then
    b.removeLevelAt r.symbolId r.side r.price r.qty
  else b

def onAdd (b : BookBuilder) (m : AddOrder) : BookBuilder × Option NormalizedTick :=
  if acceptable m.symbolId m.price m.qty then
    match b.toOrderPool.insertOrder orderSlot m.orderId with
    | (pool, none) => ({ b with toOrderPool := pool }, none)
    | (pool, some idx) =>
      let b := dropReplaced { b with toOrderPool := pool } idx m.orderId
      let b := { b with toOrderPool := b.writeFields idx ⟨m.symbolId, m.side, m.price, m.qty⟩ }
      let b := b.markLive idx
      -- taken after a replaced order is gone from its level
      let before := b.top m.symbolId
      let b := b.addLevelAt m.symbolId m.side m.price m.qty
      (b, b.tickIfChanged before (b.top m.symbolId) m.symbolId m.hdr .addOrder)
  else (b, none)

def onModify (b : BookBuilder) (m : ModifyOrder) : BookBuilder × Option NormalizedTick :=
  match b.findOrder orderSlot m.orderId with
  | none => (b, none)
  | some idx =>
    if acceptable m.symbolId m.price m.qty then
      let r := b.orders idx
      -- the old symbol before, the new symbol after
      let before := b.top r.symbolId
      let b := b.removeLevelAt r.symbolId r.side r.price r.qty
      let b := { b with toOrderPool := b.writeFields idx ⟨m.symbolId, m.side, m.price, m.qty⟩ }
      let b := b.addLevelAt m.symbolId m.side m.price m.qty
      (b, b.tickIfChanged before (b.top m.symbolId) m.symbolId m.hdr .modifyOrder)
    else (b, none)

def onDelete (b : BookBuilder) (m : DeleteOrder) : BookBuilder × Option NormalizedTick :=
  match b.findOrder orderSlot m.orderId with
  | none => (b, none)
  | some idx =>
    let r := b.orders idx
    let before := b.top r.symbolId
    let b := b.removeLevelAt r.symbolId r.side r.price r.qty
    let b := { b with toOrderPool := b.eraseOrder orderSlot m.orderId }
    (b, b.tickIfChanged before (b.top r.symbolId) r.symbolId m.hdr .deleteOrder)

def onTrade (b : BookBuilder) (m : Trade) : BookBuilder × Option NormalizedTick :=
  if acceptable m.symbolId m.price m.qty then
    let b := b.setBook m.symbolId
      { b.book m.symbolId with lastPrice := m.price, lastQty := m.qty }
    (b, some (b.makeTick m.symbolId m.hdr.seq m.hdr.tsNs .trade))
  else (b, none)

end BookBuilder

/-- A call of one of the four message functions. -/
inductive BookMsg where
  | add (m : AddOrder)
  | modify (m : ModifyOrder)
  | delete (m : DeleteOrder)
  | trade (m : Trade)
  deriving DecidableEq

def BookBuilder.handle (b : BookBuilder) : BookMsg → BookBuilder × Option NormalizedTick
  | .add m => b.onAdd m
  | .modify m => b.onModify m
  | .delete m => b.onDelete m
  | .trade m => b.onTrade m

/-- The book after a list of calls on a fresh builder. -/
def runBook (msgs : List BookMsg) : BookBuilder := msgs.foldl (fun b m => (b.handle m).1) {}

@[simp] theorem runBook_snoc (pre : List BookMsg) (m : BookMsg) :
    runBook (pre ++ [m]) = ((runBook pre).handle m).1 := by
  unfold runBook
  rw [List.foldl_append]
  rfl

/-! ## Reading back -/

theorem SymbolBook.side_setSide (sb : SymbolBook) (side side' : Side) (s : SideBook) :
    (sb.setSide side s).side side' = if side = side' then s else sb.side side' := by
  cases side <;> cases side' <;> rfl

@[simp] theorem SymbolBook.setSide_last (sb : SymbolBook) (side : Side) (s : SideBook) :
    (sb.setSide side s).lastPrice = sb.lastPrice ∧ (sb.setSide side s).lastQty = sb.lastQty := by
  cases side <;> exact ⟨rfl, rfl⟩

namespace BookBuilder

variable {b : BookBuilder} {symbolId symbolId' : UInt32}

theorem book_setBook {sb : SymbolBook} (h : symbolId.toNat < kMaxSymbols)
    (h' : symbolId'.toNat < kMaxSymbols) :
    (b.setBook symbolId sb).book symbolId' = if symbolId = symbolId' then sb else b.book symbolId' := by
  unfold setBook book
  dsimp only
  rw [Library.Bounds.update_ofNat b.books h h']
  simp only [UInt32.toNat_inj]

/-- The sides after a change to one of them. -/
theorem side_updateSide {side side' : Side} {f : SideBook → SideBook}
    (h : symbolId.toNat < kMaxSymbols) (h' : symbolId'.toNat < kMaxSymbols) :
    ((b.updateSide symbolId side f).book symbolId').side side'
      = if symbolId = symbolId' ∧ side = side' then f ((b.book symbolId).side side)
        else (b.book symbolId').side side' := by
  unfold updateSide
  rw [book_setBook h h']
  by_cases heq : symbolId = symbolId'
  · subst heq
    rw [if_pos rfl, SymbolBook.side_setSide]
    simp only [true_and]
  · rw [if_neg heq, if_neg fun hall => heq hall.1]

theorem last_updateSide {side : Side} {f : SideBook → SideBook} (h : symbolId.toNat < kMaxSymbols)
    (h' : symbolId'.toNat < kMaxSymbols) :
    ((b.updateSide symbolId side f).book symbolId').lastPrice = (b.book symbolId').lastPrice ∧
      ((b.updateSide symbolId side f).book symbolId').lastQty = (b.book symbolId').lastQty := by
  unfold updateSide
  rw [book_setBook h h']
  split_ifs with heq
  · subst heq
    exact SymbolBook.setSide_last ..
  · exact ⟨rfl, rfl⟩

end BookBuilder

end MarketDataPipeline.Book
