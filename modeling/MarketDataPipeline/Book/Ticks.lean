/-
# MarketDataPipeline.Book.Ticks — the tick stream mirrors the book.

A consumer that keeps the last tick of every symbol sees the top of book.  `Mirrors` is the two-state
fact about one call: without a tick no symbol's top has moved, and a tick is the new top of its symbol
while the others stand still.  It needs what the callers of the book promise: an added id is not live,
and a modified order keeps its symbol.  No bound on quantities enters, only prices and quantities as
they are displayed are compared.
-/
import MarketDataPipeline.Book.Steps

namespace MarketDataPipeline.Book

open MarketDataPipeline.Wire

/-! ## Displayed tops and the tick stream -/

/-- The four fields that the comparisons look at. -/
structure Bbo where
  bidPrice : UInt32 := 0
  bidQty : UInt32 := 0
  askPrice : UInt32 := 0
  askQty : UInt32 := 0
  deriving DecidableEq, Repr

def TopOfBook.bbo (t : TopOfBook) : Bbo := ⟨t.bidPrice, t.bidQty, t.askPrice, t.askQty⟩

def NormalizedTick.bbo (t : NormalizedTick) : Bbo := ⟨t.bidPrice, t.bidQty, t.askPrice, t.askQty⟩

/-- The ticks that a list of calls returns, in order. -/
def ticksFrom (b : BookBuilder) : List BookMsg → List NormalizedTick
  | [] => []
  | m :: msgs => (b.handle m).2.toList ++ ticksFrom (b.handle m).1 msgs

/-- What a consumer shows for a symbol: its last tick, or nothing at all. -/
def lastBbo (ticks : List NormalizedTick) (symbolId : UInt32) : Bbo :=
  ticks.foldl (fun seen t => if t.symbolId = symbolId then t.bbo else seen) {}

theorem ticksFrom_snoc (b : BookBuilder) (pre : List BookMsg) (m : BookMsg) :
    ticksFrom b (pre ++ [m]) = ticksFrom b pre
      ++ ((pre.foldl (fun b m => (b.handle m).1) b).handle m).2.toList := by
  induction pre generalizing b with
  | nil => simp [ticksFrom]
  | cons m' pre ih => simp [ticksFrom, ih]

@[simp] theorem lastBbo_snoc (ticks : List NormalizedTick) (t : NormalizedTick)
    (symbolId : UInt32) : lastBbo (ticks ++ [t]) symbolId
      = if t.symbolId = symbolId then t.bbo else lastBbo ticks symbolId := by
  unfold lastBbo
  rw [List.foldl_append]
  rfl

/-! ## One call -/

namespace BookBuilder

variable {b b' : BookBuilder} {S : BookSpec}

/-- What one call does to the displayed tops, in view of the tick it returns. -/
structure Mirrors (b b' : BookBuilder) (tick : Option NormalizedTick) : Prop where
  silent : tick = none → ∀ symbolId : UInt32, symbolId.toNat < 32 →
    (b'.top symbolId).bbo = (b.top symbolId).bbo
  shown : ∀ t, tick = some t → t.bbo = (b'.top t.symbolId).bbo ∧
    ∀ symbolId : UInt32, symbolId.toNat < 32 → symbolId ≠ t.symbolId →
      (b'.top symbolId).bbo = (b.top symbolId).bbo
  moved : ∀ t, tick = some t → t.cause = .addOrder ∨ t.cause = .modifyOrder ∨ t.cause = .deleteOrder →
    t.bbo ≠ (b.top t.symbolId).bbo

theorem mirrors_refl (b : BookBuilder) : Mirrors b b none where
  silent := fun _ _ _ => rfl
  shown := fun t ht => by cases ht
  moved := fun t ht => by cases ht

/-- A tick shows the top of book of its symbol. -/
theorem makeTick_bbo (b : BookBuilder) (symbolId : UInt32) (seq tsNs : UInt64) (cause : MsgType) :
    (b.makeTick symbolId seq tsNs cause).bbo = (b.top symbolId).bbo := by
  unfold makeTick top
  by_cases hsym : symbolId.toNat < kMaxSymbols
  · rw [if_pos hsym, if_neg (Nat.not_le.mpr hsym)]
    rfl
  · rw [if_neg hsym, if_pos (Nat.not_lt.mp hsym)]
    rfl

theorem makeTick_symbolId (b : BookBuilder) (symbolId : UInt32) (seq tsNs : UInt64)
    (cause : MsgType) : (b.makeTick symbolId seq tsNs cause).symbolId = symbolId := by
  unfold makeTick
  split_ifs <;> rfl

theorem makeTick_cause (b : BookBuilder) (symbolId : UInt32) (seq tsNs : UInt64)
    (cause : MsgType) : (b.makeTick symbolId seq tsNs cause).cause = cause := by
  unfold makeTick
  split_ifs <;> rfl

theorem sameTop_iff {before after : TopOfBook} :
    sameTop before after = true ↔ after.bbo = before.bbo := by
  unfold sameTop TopOfBook.bbo
  simp only [Bool.and_eq_true, beq_iff_eq, Bbo.mk.injEq, and_assoc]
  constructor <;>
  · rintro ⟨h1, h2, h3, h4⟩
    exact ⟨h1.symm, h2.symm, h3.symm, h4.symm⟩

/-- A call that compares the top of one symbol before and after, and leaves the others alone. -/
theorem mirrors_of_tickIfChanged {symbolId : UInt32} {hdr : Header} {cause : MsgType}
    {before : TopOfBook} (hbefore : before.bbo = (b.top symbolId).bbo)
    (hother : ∀ symbolId' : UInt32, symbolId'.toNat < 32 → symbolId' ≠ symbolId →
      (b'.top symbolId').bbo = (b.top symbolId').bbo) :
    Mirrors b b' (b'.tickIfChanged before (b'.top symbolId) symbolId hdr cause) := by
  unfold tickIfChanged
  split_ifs with hsame
  · refine ⟨?_, fun t ht => (by cases ht), fun t ht => (by cases ht)⟩
    intro _ symbolId' hsym'
    rw [sameTop_iff, hbefore] at hsame
    by_cases heq : symbolId' = symbolId
    · rw [heq]
      exact hsame
    · exact hother symbolId' hsym' heq
  · refine ⟨fun ht => (by cases ht), ?_, ?_⟩
    · intro t ht
      cases ht
      rw [makeTick_bbo, makeTick_symbolId]
      exact ⟨rfl, hother⟩
    · intro t ht _
      cases ht
      rw [sameTop_iff, hbefore] at hsame
      rw [makeTick_bbo, makeTick_symbolId]
      exact hsame

theorem top_congr {symbolId : UInt32} (h : b'.book symbolId = b.book symbolId) :
    b'.top symbolId = b.top symbolId := by
  unfold top
  rw [h]

theorem book_updateSide_of_ne {symbolId symbolId' : UInt32} {side : Side}
    {f : SideBook → SideBook} (h : symbolId.toNat < 32) (h' : symbolId'.toNat < 32)
    (hne : symbolId' ≠ symbolId) :
    (b.updateSide symbolId side f).book symbolId' = b.book symbolId' := by
  unfold updateSide
  rw [book_setBook h h', if_neg (fun heq => hne heq.symm)]

theorem book_withdraw_of_ne {o : OrderFields} {symbolId : UInt32} (ho : o.symbolId.toNat < 32)
    (hsym : symbolId.toNat < 32) (hne : symbolId ≠ o.symbolId) :
    (b.withdraw (some o)).book symbolId = b.book symbolId := by
  simp only [withdraw, removeLevelAt]
  exact book_updateSide_of_ne ho hsym hne

theorem book_deposit_of_ne {o : OrderFields} {symbolId : UInt32} (ho : o.symbolId.toNat < 32)
    (hsym : symbolId.toNat < 32) (hne : symbolId ≠ o.symbolId) (pool : OrderPool) :
    (b.deposit o pool).book symbolId = b.book symbolId := by
  have hadd : (b.addLevelAt o.symbolId o.side o.price o.qty).book symbolId = b.book symbolId :=
    book_updateSide_of_ne ho hsym hne
  exact hadd

/-- What the callers of the book promise: added ids are not live, modified orders keep their symbol. -/
def Promised (b : BookBuilder) : BookMsg → Prop
  | .add m => b.findOrder orderSlot m.orderId = none
  | .modify m => ∀ idx, b.findOrder orderSlot m.orderId = some idx →
      (b.orders idx).symbolId = m.symbolId
  | .delete _ => True
  | .trade _ => True

/-- The live order of a promised modification has the symbol of the message. -/
theorem Holds.symbolId_of_promised (h : Holds S b) {m : ModifyOrder} (hok : b.Promised (.modify m))
    {o₀ : OrderFields} (hl : S.orders.lookup m.orderId = some o₀) : o₀.symbolId = m.symbolId := by
  cases hfind : b.findOrder orderSlot m.orderId with
  | none =>
    rw [h.pool.find_none, hl] at hfind
    cases hfind
  | some idx =>
    obtain ⟨o, ho, hrec⟩ := h.pool.find_some hfind
    rw [hl] at ho
    obtain rfl := Option.some.inj ho
    have hsym := hok idx hfind
    rw [hrec] at hsym
    exact hsym

/-- **One call mirrors.** -/
theorem Holds.mirrors (h : Holds S b) {m : BookMsg} (hok : b.Promised m) :
    Mirrors b (b.handle m).1 (b.handle m).2 := by
  cases m with
  | add m =>
    simp only [BookBuilder.handle]
    rcases onAdd_cases h m with ⟨-, heq⟩ | ⟨ho, -, pool, -, heq⟩
    · rw [heq]
      exact mirrors_refl b
    · rw [heq, h.pool.find_none.mp hok]
      refine mirrors_of_tickIfChanged rfl ?_
      intro symbolId hsym hne
      exact congrArg TopOfBook.bbo (top_congr (book_deposit_of_ne ho.1 hsym hne pool))
  | modify m =>
    simp only [BookBuilder.handle]
    rcases onModify_cases h m with ⟨-, heq⟩ | ⟨ho, o₀, hl, pool, -, heq⟩
    · rw [heq]
      exact mirrors_refl b
    · -- the order stays with its symbol, so both pictures are of that symbol
      have hsame : o₀.symbolId = m.symbolId := h.symbolId_of_promised hok hl
      rw [heq, hsame]
      refine mirrors_of_tickIfChanged rfl ?_
      intro symbolId hsym hne
      refine congrArg TopOfBook.bbo (top_congr ?_)
      exact (book_deposit_of_ne ho.1 hsym hne pool).trans
        (book_withdraw_of_ne (h.valid _ _ hl).1 hsym (hsame ▸ hne))
  | delete m =>
    simp only [BookBuilder.handle]
    rcases onDelete_cases h m with ⟨-, heq⟩ | ⟨o₀, hl, pool, -, heq⟩
    · rw [heq]
      exact mirrors_refl b
    · rw [heq]
      refine mirrors_of_tickIfChanged rfl ?_
      intro symbolId hsym hne
      exact congrArg TopOfBook.bbo
        (top_congr (book_withdraw_of_ne (h.valid _ _ hl).1 hsym hne))
  | trade m =>
    simp only [BookBuilder.handle]
    rcases onTrade_cases b m with ⟨-, heq⟩ | ⟨ho, heq⟩
    · rw [heq]
      exact mirrors_refl b
    · rw [heq]
      refine ⟨fun ht => (by cases ht), ?_, ?_⟩
      · intro t ht
        cases ht
        rw [makeTick_bbo, makeTick_symbolId]
        refine ⟨rfl, fun symbolId hsym hne => ?_⟩
        refine congrArg TopOfBook.bbo (top_congr ?_)
        rw [book_setBook ho.1 hsym, if_neg (fun heq => hne heq.symm)]
      · intro t ht hcause
        cases ht
        rw [makeTick_cause] at hcause
        rcases hcause with hc | hc | hc <;> cases hc

end BookBuilder

/-! ## Whole runs -/

/-- The consumer's picture after a run, and the ticks that moved it. -/
structure MirrorRun (pre : List BookMsg) : Prop where
  mirror : ∀ symbolId : UInt32, symbolId.toNat < 32 →
    lastBbo (ticksFrom {} pre) symbolId = ((runBook pre).top symbolId).bbo
  moved : ∀ earlier t later, ticksFrom {} pre = earlier ++ t :: later →
    t.cause = .addOrder ∨ t.cause = .modifyOrder ∨ t.cause = .deleteOrder →
    t.bbo ≠ lastBbo earlier t.symbolId

theorem MirrorRun.snoc {pre : List BookMsg} {m : BookMsg} (h : MirrorRun pre)
    (hok : (runBook pre).Promised m) : MirrorRun (pre ++ [m]) := by
  have hm := (runBook_holds pre).mirrors hok
  have hticks : ticksFrom {} (pre ++ [m])
      = ticksFrom {} pre ++ ((runBook pre).handle m).2.toList := ticksFrom_snoc {} pre m
  cases htick : ((runBook pre).handle m).2 with
  | none =>
    rw [htick, Option.toList_none, List.append_nil] at hticks
    refine ⟨?_, ?_⟩
    · intro symbolId hsym
      rw [hticks, h.mirror symbolId hsym, runBook_snoc, hm.silent htick symbolId hsym]
    · rw [hticks]
      exact h.moved
  | some t =>
    rw [htick, Option.toList_some] at hticks
    obtain ⟨symbolId, seq, tsNs, cause, hsym, ht⟩ := (runBook_holds pre).tick htick
    have htsym : t.symbolId = symbolId := by
      rw [ht]
      exact BookBuilder.makeTick_symbolId ..
    obtain ⟨hbbo, hother⟩ := hm.shown t htick
    refine ⟨?_, ?_⟩
    · intro symbolId' hsym'
      rw [hticks, lastBbo_snoc, runBook_snoc]
      split_ifs with heq
      · rw [hbbo, heq]
      · rw [h.mirror symbolId' hsym', hother symbolId' hsym' (fun h0 => heq h0.symm)]
    · intro earlier t' later hsplit hcause
      rw [hticks] at hsplit
      rcases List.eq_nil_or_concat later with rfl | ⟨later, last, rfl⟩
      · -- the tick of this call
        obtain ⟨hpre, hlast⟩ := List.append_inj' hsplit rfl
        obtain rfl := (List.cons.inj hlast).1
        rw [← hpre, htsym, h.mirror symbolId hsym, ← htsym]
        exact hm.moved t htick hcause
      · rw [List.concat_eq_append, ← List.cons_append, ← List.append_assoc] at hsplit
        exact h.moved earlier t' later (List.append_inj' hsplit rfl).1 hcause

/-- **The tick stream mirrors the book.** If added ids are not live and modified orders keep their
symbol, then after every prefix of the calls the last tick of each symbol shows its top of book, and
every tick that an order message caused differs from the one before it. -/
theorem tick_stream_mirrors_book (msgs : List BookMsg)
    (hok : ∀ pre m post, msgs = pre ++ m :: post → (runBook pre).Promised m) :
    ∀ pre, pre <+: msgs →
      (∀ symbolId : UInt32, symbolId.toNat < 32 →
        lastBbo (ticksFrom {} pre) symbolId = ((runBook pre).top symbolId).bbo) ∧
      ∀ earlier t later, ticksFrom {} pre = earlier ++ t :: later →
        t.cause = .addOrder ∨ t.cause = .modifyOrder ∨ t.cause = .deleteOrder →
        t.bbo ≠ lastBbo earlier t.symbolId := by
  intro pre
  induction pre using List.reverseRecOn with
  | nil =>
    intro _
    refine ⟨fun symbolId _ => ?_, fun earlier t later h => absurd h.symm (by simp [ticksFrom])⟩
    unfold BookBuilder.top
    split_ifs <;> rfl
  | append_singleton pre m ih =>
    rintro ⟨post, hmsgs⟩
    rw [List.append_assoc] at hmsgs
    obtain ⟨hmirror, hmoved⟩ := ih ⟨_, hmsgs⟩
    have hnext := MirrorRun.snoc ⟨hmirror, hmoved⟩ (hok pre m post hmsgs.symm)
    exact ⟨hnext.mirror, hnext.moved⟩

/-- Two adds, of which the second does not reach the top, and the deletion of the first. -/
def mirrorMsgs : List BookMsg :=
  [.add ⟨⟨.addOrder, 44, 1, 1⟩, 1, 3, .buy, 100, 5⟩, .add ⟨⟨.addOrder, 44, 2, 2⟩, 2, 3, .buy, 80, 4⟩,
    .delete ⟨⟨.deleteOrder, 36, 3, 3⟩, 1, 3⟩]

theorem tick_stream_mirrors_book_delete :
    lastBbo (ticksFrom {} mirrorMsgs) 3 = ⟨80, 4, 0, 0⟩ := by
  have hok : ∀ pre m post, mirrorMsgs = pre ++ m :: post → (runBook pre).Promised m := by
    intro pre m post hmsgs
    have htake : pre = mirrorMsgs.take pre.length := by rw [hmsgs, List.take_left]
    have hget : mirrorMsgs[pre.length]? = some m := by rw [hmsgs]; simp
    have hlen : pre.length < 3 := (List.getElem?_eq_some_iff.mp hget).1
    obtain h0 | h1 | h2 : pre.length = 0 ∨ pre.length = 1 ∨ pre.length = 2 := by omega
    · rw [htake, h0]
      rw [h0] at hget
      cases hget
      show OrderPool.findOrder orderSlot _ 1 = none
      decide +kernel
    · rw [htake, h1]
      rw [h1] at hget
      cases hget
      show OrderPool.findOrder orderSlot _ 2 = none
      decide +kernel
    · rw [h2] at hget
      cases hget
      trivial
  obtain ⟨hmirror, -⟩ := tick_stream_mirrors_book mirrorMsgs hok mirrorMsgs (List.prefix_refl _)
  refine (hmirror 3 (by decide)).trans ?_
  decide +kernel

end MarketDataPipeline.Book
