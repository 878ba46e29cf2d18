/-
# MarketDataPipeline.Bars.Aggregator — trades into bars.

`BarAggregator` of `consumers.hpp` with its members, the file being the bytes in `output`; `onTime`,
`onVolume`, `onTrade` and `flushAll` follow `consumers.cpp` statement by statement.  The loop of
`on_volume` has no counter and ends only because the configured bar size shrinks the volume, so the
model is an `Option`: `none` means that the loop goes round forever (`onTrade_eq_none`), which happens
for a bar size of 0 and nothing else (`bar_aggregation_finishes`).

The 32 symbols and the two kinds of bars do not see each other.  `onTrade_cases` and `flushAll_output` say
once what a call does to the accumulators and which bars it hands to `write_bar`; no later proof unfolds
the functions.
-/
import MarketDataPipeline.Bars.Log
import MarketDataPipeline.Feed.Handler

namespace MarketDataPipeline.Bars

open MarketDataPipeline.Library.Loop
open MarketDataPipeline.Book
open MarketDataPipeline.Feed

/-! ## Accumulators -/

namespace Acc

/-- The accumulator after the first trade of a bar. -/
def start (trade : TradeEvent) : Acc where
  active := true
  startTs := trade.tsNs
  endTs := trade.tsNs
  openPrice := trade.price
  high := trade.price
  low := trade.price
  close := trade.price
  volume := trade.qty.toUInt64

/-- The accumulator after a further trade. -/
def extend (a : Acc) (trade : TradeEvent) : Acc :=
  { a with
    endTs := trade.tsNs
    high := if a.high < trade.price then trade.price else a.high
    low := if trade.price < a.low then trade.price else a.low
    close := trade.price
    volume := a.volume + trade.qty.toUInt64 }

/-- The `if` at the top of both functions. -/
def add (a : Acc) (trade : TradeEvent) : Acc := if !a.active then start trade else a.extend trade

/-- What is left of a trade that has filled a bar goes into the next one. -/
def carry (a : Acc) (trade : TradeEvent) (leftover : UInt64) : Acc :=
  { a with
    volume := leftover
    startTs := trade.tsNs
    openPrice := trade.price
    high := trade.price
    low := trade.price
    close := trade.price }

end Acc

/-! ## The aggregator -/

structure BarAggregator where
  timeBarNs : UInt64
  volumeBarQty : UInt64
  output : BarOutput := {}
  timeAcc : Fin kMaxSymbols → Acc := fun _ => {}
  volAcc : Fin kMaxSymbols → Acc := fun _ => {}

/-- The place of a symbol in the two arrays. -/
def symbolSlot (symbolId : UInt32) : Fin kMaxSymbols := Fin.ofNat kMaxSymbols symbolId.toNat

/-- One pass of the loop of `on_volume`, over the accumulator and the output. -/
def volumePass (volumeBarQty : UInt64) (symbolId : UInt32) (trade : TradeEvent)
    (st : Acc × BarOutput) : Pass (Acc × BarOutput) (Acc × BarOutput) :=
  if st.1.active = true ∧ volumeBarQty ≤ st.1.volume then
    let emitted := { st.1 with volume := volumeBarQty }
    let output := st.2.writeBar symbolId emitted 1
    let leftover := st.1.volume - volumeBarQty
    if leftover = 0 then .done ({}, output) else .again (st.1.carry trade leftover, output)
  else .done st

namespace BarAggregator

def onTime (g : BarAggregator) (symbolId : UInt32) (trade : TradeEvent) : BarAggregator :=
  let a := g.timeAcc (symbolSlot symbolId)
  if !a.active then
    { g with timeAcc := Function.update g.timeAcc (symbolSlot symbolId) (.start trade) }
  else
    let a := a.extend trade
    if g.timeBarNs ≤ trade.tsNs - a.startTs then
      { g with
        output := g.output.writeBar symbolId a 0
        timeAcc := Function.update g.timeAcc (symbolSlot symbolId) {} }
    else { g with timeAcc := Function.update g.timeAcc (symbolSlot symbolId) a }

/-- `none` if the loop never leaves; one that leaves does so within `volume + 1` passes. -/
def onVolume (g : BarAggregator) (symbolId : UInt32) (trade : TradeEvent) : Option BarAggregator :=
  let a := (g.volAcc (symbolSlot symbolId)).add trade
  (iterate (volumePass g.volumeBarQty symbolId trade) (a.volume.toNat + 1) (a, g.output)).map
    fun r => { g with
      output := r.2
      volAcc := Function.update g.volAcc (symbolSlot symbolId) r.1 }

def onTrade (g : BarAggregator) (trade : TradeEvent) : Option BarAggregator :=
  if kMaxSymbols ≤ trade.symbolId.toNat then some g
  else (g.onTime trade.symbolId trade).onVolume trade.symbolId trade

def flushTime (g : BarAggregator) (s : Fin kMaxSymbols) : BarAggregator :=
  if (g.timeAcc s).active = true then
    { g with
      output := g.output.writeBar (UInt32.ofNat s) (g.timeAcc s) 0
      timeAcc := Function.update g.timeAcc s {} }
  else g

/-- A volume bar without a volume is left where it is. -/
def flushVolume (g : BarAggregator) (s : Fin kMaxSymbols) : BarAggregator :=
  if (g.volAcc s).active = true ∧ 0 < (g.volAcc s).volume then
    { g with
      output := g.output.writeBar (UInt32.ofNat s) (g.volAcc s) 1
      volAcc := Function.update g.volAcc s {} }
  else g

/-- The body of the loop of `flush_all`. -/
def flushSymbol (g : BarAggregator) (s : Fin kMaxSymbols) : BarAggregator :=
  (g.flushTime s).flushVolume s

def flushAll (g : BarAggregator) : BarAggregator := (List.finRange kMaxSymbols).foldl flushSymbol g

end BarAggregator

/-- A call of one of the two public functions. -/
inductive BarOp where
  | trade (t : TradeEvent)
  | flush

def BarAggregator.step (g : BarAggregator) : BarOp → Option BarAggregator
  | .trade t => g.onTrade t
  | .flush => some g.flushAll

/-- The aggregator after some calls from its construction, `none` if one of them hangs. -/
def runBars (timeBarNs volumeBarQty : UInt64) (ops : List BarOp) : Option BarAggregator :=
  ops.foldlM BarAggregator.step { timeBarNs := timeBarNs, volumeBarQty := volumeBarQty }

theorem runBars_snoc (timeBarNs volumeBarQty : UInt64) (pre : List BarOp) (op : BarOp) :
    runBars timeBarNs volumeBarQty (pre ++ [op])
      = (runBars timeBarNs volumeBarQty pre).bind fun g => g.step op := by
  unfold runBars
  rw [List.foldlM_append]
  simp only [List.foldlM_cons, List.foldlM_nil, bind_pure]
  rfl

/-! ## The loop of `on_volume` -/

section Loop

variable {V : UInt64} {symbolId : UInt32} {trade : TradeEvent}

theorem volumePass_done (st : Acc × BarOutput) (h : ¬ (st.1.active = true ∧ V ≤ st.1.volume)) :
    volumePass V symbolId trade st = .done st := by
  unfold volumePass
  rw [if_neg h]

theorem volumePass_exact (st : Acc × BarOutput) (h : st.1.active = true ∧ V ≤ st.1.volume)
    (hexact : st.1.volume - V = 0) :
    volumePass V symbolId trade st
      = .done ({}, st.2.writeBar symbolId { st.1 with volume := V } 1) := by
  unfold volumePass
  rw [if_pos h]
  dsimp only
  rw [if_pos hexact]

theorem volumePass_again (st : Acc × BarOutput) (h : st.1.active = true ∧ V ≤ st.1.volume)
    (hleft : st.1.volume - V ≠ 0) :
    volumePass V symbolId trade st
      = .again (st.1.carry trade (st.1.volume - V),
          st.2.writeBar symbolId { st.1 with volume := V } 1) := by
  unfold volumePass
  rw [if_pos h]
  dsimp only
  rw [if_neg hleft]

theorem toNat_pos (hV : V ≠ 0) : 0 < V.toNat := UInt64.lt_iff_toNat_lt.mp (UInt64.pos_iff_ne_zero.mpr hV)

/-- A bar size other than 0 makes every pass lower the volume. -/
theorem volumePass_variant (hV : V ≠ 0) :
    Variant (volumePass V symbolId trade) (fun st => st.1.volume.toNat) := by
  intro st st' hpass
  by_cases hgo : st.1.active = true ∧ V ≤ st.1.volume
  · by_cases hexact : st.1.volume - V = 0
    · rw [volumePass_exact st hgo hexact] at hpass
      cases hpass
    · rw [volumePass_again st hgo hexact] at hpass
      cases hpass
      have hpos := toNat_pos hV
      have hle := UInt64.le_iff_toNat_le.mp hgo.2
      show (st.1.volume - V).toNat < st.1.volume.toNat
      rw [UInt64.toNat_sub_of_le _ _ hgo.2]
      omega
  · rw [volumePass_done st hgo] at hpass
    cases hpass

/-- `Drains V trade a out a'`: from `a` the loop hands the bars `out` to `write_bar`, one a pass, and
leaves `a'`. -/
inductive Drains (V : UInt64) (trade : TradeEvent) : Acc → List Acc → Acc → Prop where
  | stop {a : Acc} : ¬ (a.active = true ∧ V ≤ a.volume) → Drains V trade a [] a
  | exact {a : Acc} : a.active = true ∧ V ≤ a.volume → a.volume - V = 0 →
      Drains V trade a [{ a with volume := V }] {}
  | carry {a a' : Acc} {out : List Acc} : a.active = true ∧ V ≤ a.volume → a.volume - V ≠ 0 →
      Drains V trade (a.carry trade (a.volume - V)) out a' →
      Drains V trade a ({ a with volume := V } :: out) a'

/-- The bars of one kind of one symbol, as calls of `write_bar`. -/
def callsOf (symbolId : UInt32) (type : UInt8) (bars : List Acc) : List BarCall :=
  bars.map fun a => ⟨symbolId, a, type⟩

/-- The output after further calls. -/
def BarOutput.writeCalls (w : BarOutput) (calls : List BarCall) : BarOutput :=
  calls.foldl (fun w c => w.writeBar c.symbolId c.acc c.type) w

theorem BarOutput.writeCalls_append (w : BarOutput) (xs ys : List BarCall) :
    w.writeCalls (xs ++ ys) = (w.writeCalls xs).writeCalls ys := List.foldl_append ..

theorem writeBars_append (xs ys : List BarCall) :
    writeBars (xs ++ ys) = (writeBars xs).writeCalls ys := List.foldl_append ..

/-- A loop that leaves has drained the accumulator. -/
theorem drains_of_iterate {n : Nat} {a a' : Acc} {w w' : BarOutput}
    (h : iterate (volumePass V symbolId trade) n (a, w) = some (a', w')) :
    ∃ out, Drains V trade a out a' ∧ w' = w.writeCalls (callsOf symbolId 1 out) := by
  induction n generalizing a w with
  | zero => cases h
  | succ n ih =>
    by_cases hgo : a.active = true ∧ V ≤ a.volume
    · by_cases hexact : a.volume - V = 0
      · rw [iterate_done (volumePass_exact (a, w) hgo hexact)] at h
        cases h
        exact ⟨_, .exact hgo hexact, rfl⟩
      · rw [iterate_again (volumePass_again (a, w) hgo hexact)] at h
        obtain ⟨out, hout, hw⟩ := ih h
        exact ⟨_, .carry hgo hexact hout, hw⟩
    · rw [iterate_done (volumePass_done (a, w) hgo)] at h
      cases h
      exact ⟨[], .stop hgo, rfl⟩

theorem Acc.add_inactive {a : Acc} (h : a.active = false) : a.add trade = .start trade := by
  unfold Acc.add
  rw [h]
  rfl

theorem Acc.add_of_active {a : Acc} (h : a.active = true) : a.add trade = a.extend trade := by
  unfold Acc.add
  rw [h]
  rfl

theorem Acc.add_active (a : Acc) : (a.add trade).active = true := by
  cases h : a.active with
  | true => rw [add_of_active h]; exact h
  | false => rw [add_inactive h]; rfl

/-- Where the loop stops. -/
theorem Drains.rest {a a' : Acc} {out : List Acc} (h : Drains V trade a out a') :
    a'.active = false ∨ a'.volume < V := by
  induction h with
  | @stop a hstop =>
    cases hactive : a.active with
    | false => exact Or.inl rfl
    | true =>
      rw [hactive] at hstop
      refine Or.inr (UInt64.lt_iff_toNat_lt.mpr (Nat.not_le.mp fun hle => ?_))
      exact hstop ⟨rfl, UInt64.le_iff_toNat_le.mpr hle⟩
  | exact _ _ => exact Or.inl rfl
  | carry _ _ _ ih => exact ih

/-- With the bar size 0 the loop can only leave through its `break`. -/
theorem Drains.of_zero {a a' : Acc} {out : List Acc} (h : Drains 0 trade a out a')
    (ha : a.active = true) : a' = {} := by
  induction h with
  | stop hstop => exact absurd ⟨ha, UInt64.zero_le⟩ hstop
  | exact _ _ => rfl
  | carry _ _ _ ih => exact ih ha

/-- With the bar size 0 and nothing to aggregate the first pass is the last. -/
theorem volumePass_zero {a : Acc} (ha : a.active = true) (hvol : a.volume = 0) (w : BarOutput) :
    volumePass 0 symbolId trade (a, w)
      = .done ({}, w.writeBar symbolId { a with volume := 0 } 1) := by
  apply volumePass_exact (a, w) ⟨ha, UInt64.zero_le⟩
  show a.volume - 0 = 0
  rw [hvol]
  rfl

/-- With the bar size 0 and something to aggregate the loop goes round forever. -/
theorem iterate_volumePass_zero {a : Acc} (ha : a.active = true) (hvol : a.volume ≠ 0)
    (w : BarOutput) (n : Nat) : iterate (volumePass 0 symbolId trade) n (a, w) = none := by
  refine iterate_eq_none (I := fun st => st.1.active = true ∧ st.1.volume ≠ 0) ?_ ⟨ha, hvol⟩ n
  rintro st ⟨hactive, hne⟩
  have hgo : st.1.active = true ∧ 0 ≤ st.1.volume :=
    ⟨hactive, UInt64.zero_le⟩
  have hleft : st.1.volume - 0 ≠ 0 := by
    rw [UInt64.sub_zero]
    exact hne
  exact ⟨_, volumePass_again st hgo hleft, hactive, hleft⟩

end Loop

/-! ## What a call does -/

/-- The accumulator of a time bar after a trade, and the bar that the trade closes. -/
def timeStep (timeBarNs : UInt64) (a : Acc) (trade : TradeEvent) : Acc × List Acc :=
  if a.active = true ∧ timeBarNs ≤ trade.tsNs - a.startTs then ({}, [a.extend trade])
  else (a.add trade, [])

section TimeStep

variable {T : UInt64} {a : Acc} {t : TradeEvent}

theorem timeStep_inactive (h : a.active = false) : timeStep T a t = (.start t, []) := by
  unfold timeStep
  rw [if_neg (fun hgo => Bool.false_ne_true (h.symm.trans hgo.1)), Acc.add_inactive h]

theorem timeStep_close (h : a.active = true) (hclose : T ≤ t.tsNs - a.startTs) :
    timeStep T a t = ({}, [a.extend t]) := by
  unfold timeStep
  rw [if_pos ⟨h, hclose⟩]

theorem timeStep_keep (h : a.active = true) (hkeep : ¬ T ≤ t.tsNs - a.startTs) :
    timeStep T a t = (a.extend t, []) := by
  unfold timeStep
  rw [if_neg (fun hgo => hkeep hgo.2), Acc.add_of_active h]

end TimeStep

namespace BarAggregator

variable {g g' : BarAggregator} {t : TradeEvent}

theorem onTime_eq (g : BarAggregator) (symbolId : UInt32) (t : TradeEvent) :
    g.onTime symbolId t =
      let r := timeStep g.timeBarNs (g.timeAcc (symbolSlot symbolId)) t
      { g with
        output := g.output.writeCalls (callsOf symbolId 0 r.2)
        timeAcc := Function.update g.timeAcc (symbolSlot symbolId) r.1 } := by
  unfold onTime
  dsimp only
  cases hactive : (g.timeAcc (symbolSlot symbolId)).active with
  | false =>
    rw [timeStep_inactive hactive]
    rfl
  | true =>
    show (if g.timeBarNs ≤ t.tsNs - (g.timeAcc (symbolSlot symbolId)).startTs then _ else _) = _
    by_cases hclose : g.timeBarNs ≤ t.tsNs - (g.timeAcc (symbolSlot symbolId)).startTs
    · rw [if_pos hclose, timeStep_close hactive hclose]
      rfl
    · rw [if_neg hclose, timeStep_keep hactive hclose]
      rfl

/-- **What `on_trade` does** when it returns: nothing for a symbol out of range, else one step of both
accumulators of the symbol. -/
theorem onTrade_cases (h : g.onTrade t = some g') :
    (kMaxSymbols ≤ t.symbolId.toNat ∧ g' = g) ∨
    (t.symbolId.toNat < kMaxSymbols ∧ ∃ out a,
      Drains g.volumeBarQty t ((g.volAcc (symbolSlot t.symbolId)).add t) out a ∧
      let r := timeStep g.timeBarNs (g.timeAcc (symbolSlot t.symbolId)) t
      g' = { g with
        output := g.output.writeCalls (callsOf t.symbolId 0 r.2 ++ callsOf t.symbolId 1 out)
        timeAcc := Function.update g.timeAcc (symbolSlot t.symbolId) r.1
        volAcc := Function.update g.volAcc (symbolSlot t.symbolId) a }) := by
  unfold onTrade at h
  split_ifs at h with hsym
  · exact Or.inl ⟨hsym, (Option.some.inj h).symm⟩
  · refine Or.inr ⟨Nat.not_le.mp hsym, ?_⟩
    rw [onTime_eq] at h
    obtain ⟨⟨a, w⟩, hloop, rfl⟩ := Option.map_eq_some_iff.mp h
    obtain ⟨out, hout, hw⟩ := drains_of_iterate hloop
    refine ⟨out, a, hout, ?_⟩
    dsimp only at hw ⊢
    rw [hw, BarOutput.writeCalls_append]

/-- The number of passes that the model allows is enough for every loop that leaves. -/
theorem onVolume_eq_none (g : BarAggregator) (symbolId : UInt32) (t : TradeEvent) :
    g.onVolume symbolId t = none ↔ ¬ Halts (volumePass g.volumeBarQty symbolId t)
      ((g.volAcc (symbolSlot symbolId)).add t, g.output) := by
  unfold onVolume
  rw [Option.map_eq_none_iff]
  constructor
  · rintro hnone ⟨n, hn⟩
    obtain ⟨r, hr⟩ := Option.isSome_iff_exists.mp hn
    by_cases hV : g.volumeBarQty = 0
    · rw [hV] at hnone hr
      by_cases hvol : ((g.volAcc (symbolSlot symbolId)).add t).volume = 0
      · rw [iterate_done (volumePass_zero (Acc.add_active _) hvol g.output)] at hnone
        cases hnone
      · rw [iterate_volumePass_zero (Acc.add_active _) hvol] at hr
        cases hr
    · have hsome : (iterate (volumePass g.volumeBarQty symbolId t)
          (((g.volAcc (symbolSlot symbolId)).add t).volume.toNat + 1)
          ((g.volAcc (symbolSlot symbolId)).add t, g.output)).isSome :=
        iterate_isSome (volumePass_variant hV) _ _ (Nat.lt_succ_self _)
      rw [hnone] at hsome
      cases hsome
  · intro hnever
    cases hloop : iterate (volumePass g.volumeBarQty symbolId t)
        (((g.volAcc (symbolSlot symbolId)).add t).volume.toNat + 1)
        ((g.volAcc (symbolSlot symbolId)).add t, g.output) with
    | none => rfl
    | some r => exact absurd ⟨_, by rw [hloop]; rfl⟩ hnever

/-- `on_trade` hangs exactly if it enters the loop and the loop never leaves. -/
theorem onTrade_eq_none (g : BarAggregator) (t : TradeEvent) :
    g.onTrade t = none ↔ t.symbolId.toNat < kMaxSymbols ∧
      ¬ Halts (volumePass g.volumeBarQty t.symbolId t)
        ((g.volAcc (symbolSlot t.symbolId)).add t, (g.onTime t.symbolId t).output) := by
  unfold onTrade
  split_ifs with hsym
  · exact iff_of_false (by simp) fun hall => absurd hsym (Nat.not_le.mpr hall.1)
  · rw [and_iff_right (Nat.not_le.mp hsym), onVolume_eq_none, onTime_eq]

/-- With a bar size other than 0 every call returns. -/
theorem onTrade_isSome (g : BarAggregator) (t : TradeEvent) (hV : g.volumeBarQty ≠ 0) :
    (g.onTrade t).isSome := by
  unfold onTrade
  split_ifs with hsym
  · rfl
  · unfold onVolume
    rw [Option.isSome_map]
    refine iterate_isSome (volumePass_variant ?_) _ _ (Nat.lt_succ_self _)
    rw [onTime_eq]
    exact hV

/-- The calls that `flush_all` makes for one symbol. -/
def flushCalls (g : BarAggregator) (s : Fin kMaxSymbols) : List BarCall :=
  (if (g.timeAcc s).active = true then [⟨UInt32.ofNat s, g.timeAcc s, 0⟩] else []) ++
    (if (g.volAcc s).active = true ∧ 0 < (g.volAcc s).volume then
      [⟨UInt32.ofNat s, g.volAcc s, 1⟩] else [])

theorem flushTime_spec (g : BarAggregator) (s : Fin kMaxSymbols) :
    ∃ timeAcc : Fin kMaxSymbols → Acc, (∀ s', s' ≠ s → timeAcc s' = g.timeAcc s') ∧
      g.flushTime s = { g with
        output := g.output.writeCalls
          (if (g.timeAcc s).active = true then [⟨UInt32.ofNat s, g.timeAcc s, 0⟩] else [])
        timeAcc := timeAcc } := by
  unfold flushTime
  split_ifs
  · exact ⟨_, fun s' hs' => Function.update_of_ne hs' _ _, rfl⟩
  · exact ⟨g.timeAcc, fun _ _ => rfl, rfl⟩

theorem flushVolume_spec (g : BarAggregator) (s : Fin kMaxSymbols) :
    ∃ volAcc : Fin kMaxSymbols → Acc, (∀ s', s' ≠ s → volAcc s' = g.volAcc s') ∧
      ((g.volAcc s).active = false → volAcc = g.volAcc) ∧
      g.flushVolume s = { g with
        output := g.output.writeCalls
          (if (g.volAcc s).active = true ∧ 0 < (g.volAcc s).volume then
            [⟨UInt32.ofNat s, g.volAcc s, 1⟩] else [])
        volAcc := volAcc } := by
  unfold flushVolume
  split_ifs with hvol
  · exact ⟨_, fun s' hs' => Function.update_of_ne hs' _ _,
      fun hoff => absurd (hoff.symm.trans hvol.1) Bool.false_ne_true, rfl⟩
  · exact ⟨g.volAcc, fun _ _ => rfl, fun _ => rfl, rfl⟩

/-- What `flush_all` does for one symbol leaves the others and the configured sizes alone. -/
theorem flushSymbol_spec (g : BarAggregator) (s : Fin kMaxSymbols) :
    ∃ timeAcc volAcc : Fin kMaxSymbols → Acc,
      (∀ s', s' ≠ s → timeAcc s' = g.timeAcc s' ∧ volAcc s' = g.volAcc s') ∧
      ((g.volAcc s).active = false → volAcc = g.volAcc) ∧
      g.flushSymbol s = { g with
        output := g.output.writeCalls (g.flushCalls s)
        timeAcc := timeAcc
        volAcc := volAcc } := by
  obtain ⟨timeAcc, htime, heq⟩ := flushTime_spec g s
  obtain ⟨volAcc, hvol, hoff, heq'⟩ := flushVolume_spec (g.flushTime s) s
  rw [heq] at hvol hoff
  refine ⟨timeAcc, volAcc, fun s' hs' => ⟨htime s' hs', hvol s' hs'⟩, hoff, ?_⟩
  unfold flushSymbol flushCalls
  rw [heq', heq, BarOutput.writeCalls_append]

/-- The loop of `flush_all`, over distinct symbols. -/
theorem foldl_flushSymbol_output (symbols : List (Fin kMaxSymbols)) (hnodup : symbols.Nodup)
    (g : BarAggregator) :
    (symbols.foldl flushSymbol g).output = g.output.writeCalls (symbols.flatMap g.flushCalls) := by
  induction symbols generalizing g with
  | nil => rfl
  | cons s rest ih =>
    obtain ⟨hnot, hrest⟩ := List.nodup_cons.mp hnodup
    obtain ⟨timeAcc, volAcc, hother, -, heq⟩ := flushSymbol_spec g s
    have hsame : rest.flatMap (g.flushSymbol s).flushCalls = rest.flatMap g.flushCalls := by
      refine List.flatMap_congr fun s' hs' => ?_
      obtain ⟨htime, hvol⟩ := hother s' (fun hs => hnot (hs ▸ hs'))
      unfold flushCalls
      simp only [heq, htime, hvol]
    rw [List.foldl_cons, ih hrest, hsame, heq, List.flatMap_cons, BarOutput.writeCalls_append]

theorem flushAll_output (g : BarAggregator) :
    g.flushAll.output = g.output.writeCalls ((List.finRange kMaxSymbols).flatMap g.flushCalls) :=
  foldl_flushSymbol_output _ (List.nodup_finRange _) g

/-- What every pass of the loop of `flush_all` keeps. -/
theorem flushAll_induction {P : BarAggregator → Prop} (h : P g)
    (pass : ∀ g s, P g → P (g.flushSymbol s)) : P g.flushAll :=
  List.foldlRecOn _ _ h fun g hg s _ => pass g s hg

end BarAggregator

/-! ## Termination -/

/-- What holds after every call of a run. -/
theorem runBars_induction {T V : UInt64} {motive : List BarOp → BarAggregator → Prop}
    (start : motive [] { timeBarNs := T, volumeBarQty := V })
    (step : ∀ pre op g g', motive pre g → g.step op = some g' → motive (pre ++ [op]) g')
    {ops : List BarOp} {g : BarAggregator} (h : runBars T V ops = some g) : motive ops g := by
  induction ops using List.reverseRecOn generalizing g with
  | nil =>
    cases h
    exact start
  | append_singleton pre op ih =>
    rw [runBars_snoc] at h
    obtain ⟨g₀, hpre, hstep⟩ := Option.bind_eq_some_iff.mp h
    exact step pre op g₀ g (ih hpre) hstep

/-- The configured sizes are never assigned. -/
theorem step_sizes {g g' : BarAggregator} {op : BarOp} (h : g.step op = some g') :
    g'.timeBarNs = g.timeBarNs ∧ g'.volumeBarQty = g.volumeBarQty := by
  cases op with
  | trade t =>
    rcases BarAggregator.onTrade_cases h with ⟨-, rfl⟩ | ⟨-, out, a, -, rfl⟩
    · exact ⟨rfl, rfl⟩
    · exact ⟨rfl, rfl⟩
  | flush =>
    obtain rfl : g.flushAll = g' := Option.some.inj h
    refine BarAggregator.flushAll_induction
      (P := fun g₁ => g₁.timeBarNs = g.timeBarNs ∧ g₁.volumeBarQty = g.volumeBarQty) ⟨rfl, rfl⟩
      fun g₁ s hg₁ => ?_
    obtain ⟨timeAcc, volAcc, -, -, heq⟩ := BarAggregator.flushSymbol_spec g₁ s
    rw [heq]
    exact hg₁

theorem runBars_sizes {T V : UInt64} {ops : List BarOp} {g : BarAggregator}
    (h : runBars T V ops = some g) : g.timeBarNs = T ∧ g.volumeBarQty = V := by
  refine runBars_induction (motive := fun _ g => g.timeBarNs = T ∧ g.volumeBarQty = V) ⟨rfl, rfl⟩
    ?_ h
  intro pre op g g' hg hstep
  obtain ⟨htime, hvol⟩ := step_sizes hstep
  rw [htime, hvol]
  exact hg

/-- With the bar size 0 no volume bar is ever left open. -/
theorem runBars_zero {T : UInt64} {ops : List BarOp} {g : BarAggregator}
    (h : runBars T 0 ops = some g) (s : Fin kMaxSymbols) : (g.volAcc s).active = false := by
  have hall : g.volumeBarQty = 0 ∧ ∀ s, (g.volAcc s).active = false := by
    refine runBars_induction
      (motive := fun _ g => g.volumeBarQty = 0 ∧ ∀ s, (g.volAcc s).active = false)
      ⟨rfl, fun _ => rfl⟩ ?_ h
    rintro pre op g g' ⟨hzero, hoff⟩ hstep
    refine ⟨(step_sizes hstep).2.trans hzero, ?_⟩
    cases op with
    | trade t =>
      rcases BarAggregator.onTrade_cases hstep with ⟨-, rfl⟩ | ⟨-, out, a, hout, rfl⟩
      · exact hoff
      · rw [hzero] at hout
        intro s
        dsimp only
        by_cases hs : s = symbolSlot t.symbolId
        · rw [hs, Function.update_self, hout.of_zero (Acc.add_active _)]
        · rw [Function.update_of_ne hs]
          exact hoff s
    | flush =>
      obtain rfl : g.flushAll = g' := Option.some.inj hstep
      refine BarAggregator.flushAll_induction (P := fun g₁ => ∀ s, (g₁.volAcc s).active = false) hoff
        fun g₁ s hg₁ => ?_
      obtain ⟨timeAcc, volAcc, -, hkeep, heq⟩ := BarAggregator.flushSymbol_spec g₁ s
      rw [heq, hkeep (hg₁ s)]
      exact hg₁
  exact hall.2 s

/-- With the bar size 0 and a trade without a quantity the `break` is reached at once. -/
theorem halts_of_no_quantity {T : UInt64} {ops : List BarOp} {g : BarAggregator}
    (h : runBars T 0 ops = some g) {t : TradeEvent} (hqty : t.qty = 0) (w : BarOutput) :
    Halts (volumePass 0 t.symbolId t) ((g.volAcc (symbolSlot t.symbolId)).add t, w) := by
  have hvol : ((g.volAcc (symbolSlot t.symbolId)).add t).volume = 0 := by
    rw [Acc.add_inactive (runBars_zero h _)]
    show t.qty.toUInt64 = 0
    rw [hqty]
    decide
  refine ⟨1, ?_⟩
  rw [iterate_done (volumePass_zero (Acc.add_active _) hvol w)]
  rfl

/-- With the bar size 0 and a quantity it is never reached. -/
theorem not_halts_of_quantity {T : UInt64} {ops : List BarOp} {g : BarAggregator}
    (h : runBars T 0 ops = some g) {t : TradeEvent} (hqty : t.qty ≠ 0) (w : BarOutput) :
    ¬ Halts (volumePass 0 t.symbolId t) ((g.volAcc (symbolSlot t.symbolId)).add t, w) := by
  have hvol : ((g.volAcc (symbolSlot t.symbolId)).add t).volume ≠ 0 := by
    rw [Acc.add_inactive (runBars_zero h _)]
    intro hzero
    exact hqty (UInt32.toNat_inj.mp (congrArg UInt64.toNat hzero))
  rintro ⟨n, hn⟩
  rw [iterate_volumePass_zero (Acc.add_active _) hvol] at hn
  cases hn

/-- **`on_trade` returns, with less than a bar in hand, unless the bar size is 0 and the trade has a
quantity and a symbol in range.**  Neither the constructor nor the handler's configuration excludes the
size 0.  A call that does not return is one whose loop never leaves. -/
theorem bar_aggregation_finishes (T V : UInt64) (ops : List BarOp) (g : BarAggregator)
    (hreach : runBars T V ops = some g) (t : TradeEvent) :
    (g.onTrade t = none ↔ t.symbolId.toNat < kMaxSymbols ∧ ¬ Halts (volumePass V t.symbolId t)
      ((g.volAcc (symbolSlot t.symbolId)).add t, (g.onTime t.symbolId t).output)) ∧
    ((∃ g', g.onTrade t = some g' ∧ (t.symbolId.toNat < kMaxSymbols →
        (g'.volAcc (symbolSlot t.symbolId)).active = false ∨
          (g'.volAcc (symbolSlot t.symbolId)).volume < V)) ↔
      V ≠ 0 ∨ t.qty = 0 ∨ kMaxSymbols ≤ t.symbolId.toNat) := by
  have hsize : g.volumeBarQty = V := (runBars_sizes hreach).2
  have hnone := g.onTrade_eq_none t
  rw [hsize] at hnone
  refine ⟨hnone, ?_⟩
  constructor
  · rintro ⟨g', hret, -⟩
    by_contra hnot
    simp only [not_or, not_not, Nat.not_le] at hnot
    obtain ⟨rfl, hqty, hsym⟩ := hnot
    rw [hnone.mpr ⟨hsym, not_halts_of_quantity hreach hqty _⟩] at hret
    cases hret
  · intro hcond
    have hreturns : g.onTrade t ≠ none := by
      rw [Ne, hnone]
      rintro ⟨hsym, hnever⟩
      by_cases hV : V = 0
      · subst hV
        obtain hne | hqty | hout := hcond
        · exact hne rfl
        · exact hnever (halts_of_no_quantity hreach hqty _)
        · exact absurd hsym (Nat.not_lt.mpr hout)
      · exact hnever (halts_of_variant (volumePass_variant hV) _)
    obtain ⟨g', hret⟩ := Option.ne_none_iff_exists'.mp hreturns
    refine ⟨g', hret, fun hsym => ?_⟩
    rcases BarAggregator.onTrade_cases hret with ⟨hout, -⟩ | ⟨-, out, a, hdrains, rfl⟩
    · exact absurd hsym (Nat.not_lt.mpr hout)
    · rw [hsize] at hdrains
      dsimp only
      rw [Function.update_self]
      exact hdrains.rest

/-- One share with the bar size 0. -/
theorem zero_bar_size_hangs :
    let t : TradeEvent := ⟨0, 50, 1, .buy, 1, 100, 1⟩
    let g : BarAggregator := { timeBarNs := 1000000000, volumeBarQty := 0 }
    runBars 1000000000 0 [] = some g ∧ g.onTrade t = none ∧
      ¬ Halts (volumePass 0 t.symbolId t) (({} : Acc).add t, (g.onTime 0 t).output) := by
  intro t g
  have hstart : runBars 1000000000 0 [] = some g := rfl
  have hnever := not_halts_of_quantity hstart (t := t) (by decide) (g.onTime 0 t).output
  exact ⟨hstart, (g.onTrade_eq_none t).mpr ⟨by decide, hnever⟩, hnever⟩

theorem bar_aggregation_finishes_one :
    let t : TradeEvent := ⟨0, 50, 25, .buy, 1, 100, 1⟩
    let g : BarAggregator := { timeBarNs := 1000, volumeBarQty := 10 }
    ∃ g', g.onTrade t = some g' ∧ (t.symbolId.toNat < kMaxSymbols →
      (g'.volAcc (symbolSlot t.symbolId)).active = false ∨
        (g'.volAcc (symbolSlot t.symbolId)).volume < 10) :=
  (bar_aggregation_finishes 1000 10 [] _ rfl ⟨0, 50, 25, .buy, 1, 100, 1⟩).2.mpr (Or.inl (by decide))

end MarketDataPipeline.Bars
