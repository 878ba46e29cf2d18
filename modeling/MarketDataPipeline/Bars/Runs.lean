/-
# MarketDataPipeline.Bars.Runs — a run of the aggregator, one symbol at a time.

The log is one file for 32 symbols and two kinds of bars.  `TimeRun` and `VolumeRun` follow one
accumulator over the trades of its symbol and collect the bars it hands to `write_bar`; `Tracks` says
that the bars of that symbol and kind in the log are these, in this order, and nothing else.
`runBars_tracks` takes a run of the aggregator apart in this way and `Tracks.log` reads the log of a run
that ends with a flush.
-/
import MarketDataPipeline.Bars.Aggregator

namespace MarketDataPipeline.Bars

open MarketDataPipeline.Book
open MarketDataPipeline.Feed

/-! ## One accumulator -/

/-- The trades of a symbol, in order. -/
def tradesOf (symbolId : UInt32) (trades : List TradeEvent) : List TradeEvent :=
  trades.filter fun t => t.symbolId == symbolId

/-- The trades, the bars closed by `on_time`, and the accumulator they leave. -/
inductive TimeRun (T : UInt64) : List TradeEvent → List Acc → Acc → Prop where
  | nil : TimeRun T [] [] {}
  | snoc {trades : List TradeEvent} {bars : List Acc} {a : Acc} (t : TradeEvent) :
      TimeRun T trades bars a →
      TimeRun T (trades ++ [t]) (bars ++ (timeStep T a t).2) (timeStep T a t).1

/-- The trades, the bars filled in `on_volume`, and the accumulator they leave. -/
inductive VolumeRun (V : UInt64) : List TradeEvent → List Acc → Acc → Prop where
  | nil : VolumeRun V [] [] {}
  | snoc {trades : List TradeEvent} {bars out : List Acc} {a a' : Acc} (t : TradeEvent) :
      VolumeRun V trades bars a → Drains V t (a.add t) out a' →
      VolumeRun V (trades ++ [t]) (bars ++ out) a'

/-- The bars of one kind of one symbol among some calls of `write_bar`. -/
def barsFor (calls : List BarCall) (symbolId : UInt32) (type : UInt8) : List Acc :=
  (calls.filter fun c => c.symbolId == symbolId && c.type == type).map BarCall.acc

section Bars

variable {symbolId symbolId' : UInt32} {type type' : UInt8}

theorem barsFor_append (xs ys : List BarCall) :
    barsFor (xs ++ ys) symbolId type = barsFor xs symbolId type ++ barsFor ys symbolId type := by
  unfold barsFor
  rw [List.filter_append, List.map_append]

theorem barsFor_callsOf (bars : List Acc) :
    barsFor (callsOf symbolId type bars) symbolId type = bars := by
  unfold barsFor callsOf
  rw [List.filter_map, List.map_map]
  simp [Function.comp_def]

theorem barsFor_callsOf_of_ne (bars : List Acc) (h : ¬ (symbolId = symbolId' ∧ type = type')) :
    barsFor (callsOf symbolId type bars) symbolId' type' = [] := by
  unfold barsFor
  rw [List.filter_eq_nil_iff.mpr, List.map_nil]
  intro c hc hsel
  obtain ⟨a, -, rfl⟩ := List.mem_map.mp hc
  exact h (by simpa using hsel)

/-- The time bars among those that one trade writes. -/
theorem barsFor_step_time (bars out : List Acc) :
    barsFor (callsOf symbolId 0 bars ++ callsOf symbolId 1 out) symbolId' 0
      = if symbolId = symbolId' then bars else [] := by
  rw [barsFor_append, barsFor_callsOf_of_ne out (fun hall => absurd hall.2 (by decide)),
    List.append_nil]
  split_ifs with hself
  · rw [← hself, barsFor_callsOf]
  · exact barsFor_callsOf_of_ne bars fun hall => hself hall.1

/-- The volume bars. -/
theorem barsFor_step_volume (bars out : List Acc) :
    barsFor (callsOf symbolId 0 bars ++ callsOf symbolId 1 out) symbolId' 1
      = if symbolId = symbolId' then out else [] := by
  rw [barsFor_append, barsFor_callsOf_of_ne bars (fun hall => absurd hall.2 (by decide)),
    List.nil_append]
  split_ifs with hself
  · rw [← hself, barsFor_callsOf]
  · exact barsFor_callsOf_of_ne out fun hall => hself hall.1

theorem symbolSlot_inj (h : symbolId.toNat < kMaxSymbols) (h' : symbolId'.toNat < kMaxSymbols)
    (heq : symbolSlot symbolId = symbolSlot symbolId') : symbolId = symbolId' := by
  exact UInt32.toNat_inj.mp (Library.Bounds.ofNat_inj h h' heq)

theorem ofNat_symbolSlot (h : symbolId.toNat < kMaxSymbols) :
    UInt32.ofNat (symbolSlot symbolId) = symbolId := by
  unfold symbolSlot
  rw [Fin.val_ofNat, Nat.mod_eq_of_lt h, UInt32.ofNat_toNat]

end Bars

/-! ## The whole aggregator -/

/-- **The log and the accumulators are those of the runs of the single symbols.** -/
structure Tracks (T V : UInt64) (trades : List TradeEvent) (g : BarAggregator)
    (calls : List BarCall) : Prop where
  sizes : g.timeBarNs = T ∧ g.volumeBarQty = V
  output : g.output = writeBars calls
  known : ∀ c ∈ calls, c.symbolId.toNat < kMaxSymbols ∧ (c.type = 0 ∨ c.type = 1)
  time : ∀ symbolId : UInt32, symbolId.toNat < kMaxSymbols →
    TimeRun T (tradesOf symbolId trades) (barsFor calls symbolId 0)
      (g.timeAcc (symbolSlot symbolId))
  volume : ∀ symbolId : UInt32, symbolId.toNat < kMaxSymbols →
    VolumeRun V (tradesOf symbolId trades) (barsFor calls symbolId 1)
      (g.volAcc (symbolSlot symbolId))

section Runs

variable {T V : UInt64} {trades : List TradeEvent} {g g' : BarAggregator} {calls : List BarCall}
  {t : TradeEvent} {symbolId : UInt32}

theorem tradesOf_snoc_self :
    tradesOf t.symbolId (trades ++ [t]) = tradesOf t.symbolId trades ++ [t] := by
  unfold tradesOf
  rw [List.filter_append, List.filter_cons_of_pos (by simp), List.filter_nil]

theorem tradesOf_snoc_ne (h : t.symbolId ≠ symbolId) :
    tradesOf symbolId (trades ++ [t]) = tradesOf symbolId trades := by
  unfold tradesOf
  rw [List.filter_append, List.filter_cons_of_neg (by simpa using h), List.filter_nil,
    List.append_nil]

/-- The step: one trade. -/
theorem Tracks.onTrade (h : Tracks T V trades g calls) (hstep : g.onTrade t = some g') :
    ∃ new, Tracks T V (trades ++ [t]) g' (calls ++ new) := by
  obtain ⟨rfl, rfl⟩ := h.sizes
  rcases BarAggregator.onTrade_cases hstep with ⟨hout, rfl⟩ | ⟨hin, out, a, hdrains, rfl⟩
  · refine ⟨[], ?_⟩
    have hsame : ∀ symbolId : UInt32, symbolId.toNat < kMaxSymbols →
        tradesOf symbolId (trades ++ [t]) = tradesOf symbolId trades := by
      rintro symbolId hsym
      apply tradesOf_snoc_ne
      rintro rfl
      exact absurd hsym (Nat.not_lt.mpr hout)
    rw [List.append_nil]
    refine ⟨h.sizes, h.output, h.known, ?_, ?_⟩
    · intro symbolId hsym
      rw [hsame symbolId hsym]
      exact h.time symbolId hsym
    · intro symbolId hsym
      rw [hsame symbolId hsym]
      exact h.volume symbolId hsym
  · let r := timeStep g.timeBarNs (g.timeAcc (symbolSlot t.symbolId)) t
    refine ⟨callsOf t.symbolId 0 r.2 ++ callsOf t.symbolId 1 out, h.sizes, ?_, ?_, ?_, ?_⟩
    · rw [writeBars_append, ← h.output]
    · intro c hc
      rcases List.mem_append.mp hc with hc | hc
      · exact h.known c hc
      · rcases List.mem_append.mp hc with hc | hc
        · obtain ⟨b, -, rfl⟩ := List.mem_map.mp hc
          exact ⟨hin, Or.inl rfl⟩
        · obtain ⟨b, -, rfl⟩ := List.mem_map.mp hc
          exact ⟨hin, Or.inr rfl⟩
    · intro symbolId hsym
      dsimp only
      rw [barsFor_append, barsFor_step_time]
      by_cases hself : t.symbolId = symbolId
      · subst hself
        rw [if_pos rfl, tradesOf_snoc_self, Function.update_self]
        exact .snoc t (h.time t.symbolId hsym)
      · rw [if_neg hself, tradesOf_snoc_ne hself, List.append_nil,
          Function.update_of_ne (fun heq => hself (symbolSlot_inj hsym hin heq).symm)]
        exact h.time symbolId hsym
    · intro symbolId hsym
      dsimp only
      rw [barsFor_append, barsFor_step_volume]
      by_cases hself : t.symbolId = symbolId
      · subst hself
        rw [if_pos rfl, tradesOf_snoc_self, Function.update_self]
        exact .snoc t (h.volume t.symbolId hsym) hdrains
      · rw [if_neg hself, tradesOf_snoc_ne hself, List.append_nil,
          Function.update_of_ne (fun heq => hself (symbolSlot_inj hsym hin heq).symm)]
        exact h.volume symbolId hsym

/-- What holds after every trade of a run of trades. -/
theorem runTrades_induction {motive : List TradeEvent → BarAggregator → Prop}
    (start : motive [] { timeBarNs := T, volumeBarQty := V })
    (step : ∀ pre t g g', runBars T V (pre.map .trade) = some g → motive pre g →
      g.onTrade t = some g' → motive (pre ++ [t]) g')
    (h : runBars T V (trades.map .trade) = some g) : motive trades g := by
  induction trades using List.reverseRecOn generalizing g with
  | nil =>
    cases h
    exact start
  | append_singleton pre t ih =>
    rw [List.map_append, List.map_singleton, runBars_snoc] at h
    obtain ⟨g₀, hpre, hstep⟩ := Option.bind_eq_some_iff.mp h
    exact step pre t g₀ g hpre (ih hpre) hstep

/-- **A run of trades, taken apart.** -/
theorem runBars_tracks (h : runBars T V (trades.map .trade) = some g) :
    ∃ calls, Tracks T V trades g calls := by
  refine runTrades_induction (motive := fun trades g => ∃ calls, Tracks T V trades g calls) ?_ ?_ h
  · refine ⟨[], ⟨rfl, rfl⟩, rfl, ?_, fun _ _ => TimeRun.nil, fun _ _ => VolumeRun.nil⟩
    exact List.forall_mem_nil _
  · rintro pre t g g' - ⟨calls, hcalls⟩ hstep
    obtain ⟨new, hnew⟩ := hcalls.onTrade hstep
    exact ⟨calls ++ new, hnew⟩

/-- With a bar size other than 0 every list of trades is worked off. -/
theorem runBars_isSome (hV : V ≠ 0) (trades : List TradeEvent) :
    ∃ g, runBars T V (trades.map .trade) = some g := by
  induction trades using List.reverseRecOn with
  | nil => exact ⟨_, rfl⟩
  | append_singleton pre t ih =>
    obtain ⟨g, hg⟩ := ih
    have hsome := g.onTrade_isSome t (by rw [(runBars_sizes hg).2]; exact hV)
    obtain ⟨g', hg'⟩ := Option.isSome_iff_exists.mp hsome
    refine ⟨g', ?_⟩
    rw [List.map_append, List.map_singleton, runBars_snoc, hg]
    exact hg'

/-! ## The flush at the end -/

/-- The calls that `flush_all` makes. -/
def openBars (g : BarAggregator) : List BarCall :=
  (List.finRange kMaxSymbols).flatMap g.flushCalls

theorem mem_flushCalls {s : Fin kMaxSymbols} {c : BarCall} (h : c ∈ g.flushCalls s) :
    c.symbolId = UInt32.ofNat s ∧ (c.type = 0 ∨ c.type = 1) := by
  unfold BarAggregator.flushCalls at h
  rcases List.mem_append.mp h with h | h
  · split_ifs at h
    · rw [List.mem_singleton.mp h]
      exact ⟨rfl, Or.inl rfl⟩
    · cases h
  · split_ifs at h
    · rw [List.mem_singleton.mp h]
      exact ⟨rfl, Or.inr rfl⟩
    · cases h

theorem toNat_ofNat_slot (s : Fin kMaxSymbols) : (UInt32.ofNat s).toNat = s.val := by
  have hlt : s.val < 32 := s.isLt
  rw [UInt32.toNat_ofNat']
  omega

theorem symbolSlot_ofNat (s : Fin kMaxSymbols) : symbolSlot (UInt32.ofNat s) = s := by
  unfold symbolSlot
  rw [toNat_ofNat_slot]
  exact Fin.ofNat_val_eq_self s

theorem openBars_known : ∀ c ∈ openBars g,
    c.symbolId.toNat < kMaxSymbols ∧ (c.type = 0 ∨ c.type = 1) := by
  intro c hc
  obtain ⟨s, -, hs⟩ := List.mem_flatMap.mp hc
  obtain ⟨hid, htype⟩ := mem_flushCalls hs
  rw [hid, toNat_ofNat_slot]
  exact ⟨s.isLt, htype⟩

theorem barsFor_flushCalls_of_ne {s : Fin kMaxSymbols} (hs : symbolSlot symbolId ≠ s) (type : UInt8) :
    barsFor (g.flushCalls s) symbolId type = [] := by
  unfold barsFor
  rw [List.filter_eq_nil_iff.mpr, List.map_nil]
  intro c hc hsel
  rw [Bool.and_eq_true, beq_iff_eq, (mem_flushCalls hc).1] at hsel
  exact hs (by rw [← hsel.1, symbolSlot_ofNat])

/-- One symbol among the calls of `flush_all`. -/
theorem barsFor_flatMap_flushCalls {symbols : List (Fin kMaxSymbols)} (hnodup : symbols.Nodup)
    (hmem : symbolSlot symbolId ∈ symbols) (type : UInt8) :
    barsFor (symbols.flatMap g.flushCalls) symbolId type
      = barsFor (g.flushCalls (symbolSlot symbolId)) symbolId type := by
  induction symbols with
  | nil => cases hmem
  | cons s rest ih =>
    obtain ⟨hnot, hrest⟩ := List.nodup_cons.mp hnodup
    rw [List.flatMap_cons, barsFor_append]
    rcases List.mem_cons.mp hmem with rfl | hin
    · have hnone : barsFor (rest.flatMap g.flushCalls) symbolId type = [] := by
        unfold barsFor
        rw [List.filter_eq_nil_iff.mpr, List.map_nil]
        intro c hc hsel
        obtain ⟨s, hs, hc⟩ := List.mem_flatMap.mp hc
        rw [Bool.and_eq_true, beq_iff_eq, (mem_flushCalls hc).1] at hsel
        exact hnot (by rw [← hsel.1, symbolSlot_ofNat]; exact hs)
      rw [hnone, List.append_nil]
    · have hs : symbolSlot symbolId ≠ s := by
        rintro rfl
        exact hnot hin
      rw [barsFor_flushCalls_of_ne hs, List.nil_append, ih hrest hin]

/-- The bars that a flush would write for one symbol. -/
theorem barsFor_openBars (g : BarAggregator) (symbolId : UInt32) (type : UInt8) :
    barsFor (openBars g) symbolId type
      = barsFor (g.flushCalls (symbolSlot symbolId)) symbolId type := by
  unfold openBars
  rw [barsFor_flatMap_flushCalls (List.nodup_finRange _) (List.mem_finRange _)]

theorem openBars_time (g : BarAggregator) (hsym : symbolId.toNat < kMaxSymbols) :
    barsFor (openBars g) symbolId 0 =
      if (g.timeAcc (symbolSlot symbolId)).active = true then [g.timeAcc (symbolSlot symbolId)]
      else [] := by
  rw [barsFor_openBars]
  unfold BarAggregator.flushCalls
  rw [ofNat_symbolSlot hsym, barsFor_append]
  split_ifs <;> simp [barsFor]

theorem openBars_volume (g : BarAggregator) (hsym : symbolId.toNat < kMaxSymbols) :
    barsFor (openBars g) symbolId 1 =
      if (g.volAcc (symbolSlot symbolId)).active = true ∧ 0 < (g.volAcc (symbolSlot symbolId)).volume
      then [g.volAcc (symbolSlot symbolId)] else [] := by
  rw [barsFor_openBars]
  unfold BarAggregator.flushCalls
  rw [ofNat_symbolSlot hsym, barsFor_append]
  split_ifs <;> simp [barsFor]

/-! ## The log -/

/-- The bars of one kind of one symbol in a log, in file order. -/
def barsOf (bars : List Bar) (symbolId : UInt32) (type : UInt8) : List Bar :=
  bars.filter fun b => b.symbolId == symbolId.toNat && b.barType == type.toNat

theorem barsOf_map (calls : List BarCall) (symbolId : UInt32) (type : UInt8) :
    barsOf (calls.map BarCall.bar) symbolId type
      = (barsFor calls symbolId type).map fun a => BarCall.bar ⟨symbolId, a, type⟩ := by
  unfold barsOf barsFor
  rw [List.filter_map, List.map_map]
  have hsel : ((fun b : Bar => b.symbolId == symbolId.toNat && b.barType == type.toNat) ∘ BarCall.bar)
      = fun c => c.symbolId == symbolId && c.type == type := by
    funext c
    show (c.symbolId.toNat == symbolId.toNat && c.type.toNat == type.toNat) = _
    rw [Bool.eq_iff_iff]
    simp only [Bool.and_eq_true, beq_iff_eq, UInt32.toNat_inj, UInt8.toNat_inj]
  rw [hsel]
  apply List.map_congr_left
  intro c hc
  obtain ⟨-, hc⟩ := List.mem_filter.mp hc
  rw [Bool.and_eq_true, beq_iff_eq, beq_iff_eq] at hc
  obtain ⟨rfl, rfl⟩ := hc
  rfl

/-- The log after a flush. -/
theorem flushAll_log (h : g.output = writeBars calls) :
    g.flushAll.output = writeBars (calls ++ openBars g) ∧
      readBars g.flushAll.output.out = .ok ((calls ++ openBars g).map BarCall.bar) := by
  have hout : g.flushAll.output = writeBars (calls ++ openBars g) := by
    rw [BarAggregator.flushAll_output, h, ← writeBars_append]
    rfl
  refine ⟨hout, ?_⟩
  rw [hout, readBars_writeBars]

theorem runBars_flush {ops : List BarOp} (h : runBars T V ops = some g) :
    runBars T V (ops ++ [.flush]) = some g.flushAll := by
  rw [runBars_snoc, h]
  rfl

/-- **The log of some trades and a final flush.** -/
theorem Tracks.log (h : Tracks T V trades g calls)
    (hrun : runBars T V (trades.map .trade) = some g) :
    runBars T V (trades.map .trade ++ [.flush]) = some g.flushAll ∧
      g.flushAll.output = writeBars (calls ++ openBars g) ∧
      readBars g.flushAll.output.out = .ok ((calls ++ openBars g).map BarCall.bar) :=
  ⟨runBars_flush hrun, flushAll_log h.output⟩

end Runs

end MarketDataPipeline.Bars
