/-
# MarketDataPipeline.Bars.TimeBars — which trades a time bar covers.

`accOf` is the accumulator of a block of trades and `Aggregates` what the bar of a block is to show.
The accumulators of `on_time` cut the trades of a symbol into consecutive blocks, with none left out or
counted twice (`TimeRun.blocks`), whatever the timestamps are.

The trade that closes a bar is added to it before the elapsed time is looked at.  So a closed bar always
reaches over its own interval (`TimeRun.closed_late`), and bars keep to their intervals only as long as
none is closed (`time_bar_interval`).
-/
import MarketDataPipeline.Bars.Runs

namespace MarketDataPipeline.Bars

open MarketDataPipeline.Book
open MarketDataPipeline.Feed

/-! ## The bar of a block -/

/-- The accumulator after the trades of a block. -/
def accOf (block : List TradeEvent) : Acc := block.foldl Acc.add {}

@[simp] theorem accOf_nil : accOf [] = {} := rfl

theorem accOf_snoc (block : List TradeEvent) (t : TradeEvent) :
    accOf (block ++ [t]) = (accOf block).add t := by
  unfold accOf
  rw [List.foldl_append]
  rfl

theorem accOf_active {block : List TradeEvent} : (accOf block).active = true ↔ block ≠ [] := by
  induction block using List.reverseRecOn with
  | nil => simp
  | append_singleton pre t _ =>
    rw [accOf_snoc]
    simp [Acc.add_active]

theorem Acc.add_endTs (a : Acc) (t : TradeEvent) : (a.add t).endTs = t.tsNs := by
  cases hactive : a.active with
  | false => rw [add_inactive hactive]; rfl
  | true => rw [add_of_active hactive]; rfl

theorem Acc.extend_high (a : Acc) (t : TradeEvent) :
    (a.extend t).high.toNat = max t.price.toNat a.high.toNat := by
  show (if a.high < t.price then t.price else a.high).toNat = _
  split_ifs with hlt
  · rw [UInt32.lt_iff_toNat_lt] at hlt
    omega
  · rw [UInt32.lt_iff_toNat_lt] at hlt
    omega

theorem Acc.extend_low (a : Acc) (t : TradeEvent) :
    (a.extend t).low.toNat = min t.price.toNat a.low.toNat := by
  show (if t.price < a.low then t.price else a.low).toNat = _
  split_ifs with hlt
  · rw [UInt32.lt_iff_toNat_lt] at hlt
    omega
  · rw [UInt32.lt_iff_toNat_lt] at hlt
    omega

/-- The prices of the trades of a block. -/
def prices (block : List TradeEvent) : Set Nat := {p | ∃ t ∈ block, t.price.toNat = p}

theorem prices_snoc (block : List TradeEvent) (t : TradeEvent) :
    prices (block ++ [t]) = insert t.price.toNat (prices block) := by
  ext p
  rw [Set.mem_insert_iff]
  show (∃ x ∈ block ++ [t], x.price.toNat = p) ↔ p = t.price.toNat ∨ ∃ x ∈ block, x.price.toNat = p
  simp only [List.mem_append, List.mem_singleton]
  constructor
  · rintro ⟨x, hx | rfl, hp⟩
    · exact Or.inr ⟨x, hx, hp⟩
    · exact Or.inl hp.symm
  · rintro (rfl | ⟨x, hx, hp⟩)
    · exact ⟨t, Or.inr rfl, rfl⟩
    · exact ⟨x, Or.inl hx, hp⟩

/-- **What the bar of a block shows**: the first and the last trade, the extreme prices, and the total
quantity in 64 bits. -/
structure Aggregates (block : List TradeEvent) (bar : Bar) : Prop where
  first : ∃ t, block.head? = some t ∧ bar.openPrice = t.price.toNat ∧ bar.startTsNs = t.tsNs.toNat
  last : ∃ t, block.getLast? = some t ∧ bar.close = t.price.toNat ∧ bar.endTsNs = t.tsNs.toNat
  high : IsGreatest (prices block) bar.high
  low : IsLeast (prices block) bar.low
  volume : bar.volume = (block.map fun t => t.qty.toNat).sum % 2 ^ 64

section Block

variable {symbolId : UInt32} {type : UInt8} {block : List TradeEvent} {a : Acc}

theorem aggregates_start (t : TradeEvent) : Aggregates [t] (BarCall.bar ⟨symbolId, .start t, type⟩) where
  first := ⟨t, rfl, rfl, rfl⟩
  last := ⟨t, rfl, rfl, rfl⟩
  high := by
    rw [← List.nil_append [t], prices_snoc]
    simp [prices, BarCall.bar, Acc.start]
  low := by
    rw [← List.nil_append [t], prices_snoc]
    simp [prices, BarCall.bar, Acc.start]
  volume := by
    show t.qty.toUInt64.toNat = _
    have hlt := t.qty.toNat_lt
    rw [List.map_singleton, List.sum_singleton, UInt32.toNat_toUInt64, Nat.mod_eq_of_lt (by omega)]

theorem Aggregates.extend (h : Aggregates block (BarCall.bar ⟨symbolId, a, type⟩)) (t : TradeEvent) :
    Aggregates (block ++ [t]) (BarCall.bar ⟨symbolId, a.extend t, type⟩) where
  first := by
    obtain ⟨t₀, hhead, hopen⟩ := h.first
    refine ⟨t₀, ?_, hopen⟩
    rw [List.head?_append, hhead]
    rfl
  last := ⟨t, List.getLast?_concat, rfl, rfl⟩
  high := by
    show IsGreatest _ (a.extend t).high.toNat
    rw [prices_snoc, Acc.extend_high]
    exact h.high.insert _
  low := by
    show IsLeast _ (a.extend t).low.toNat
    rw [prices_snoc, Acc.extend_low]
    exact h.low.insert _
  volume := by
    have hsum : a.volume.toNat = (block.map fun t => t.qty.toNat).sum % 2 ^ 64 := h.volume
    show (a.volume + t.qty.toUInt64).toNat = _
    rw [UInt64.toNat_add, UInt32.toNat_toUInt64, hsum, List.map_append, List.sum_append,
      List.map_singleton, List.sum_singleton, Nat.mod_add_mod]

/-- The accumulator of a block holds its bar. -/
theorem accOf_aggregates (h : block ≠ []) :
    Aggregates block (BarCall.bar ⟨symbolId, accOf block, type⟩) := by
  induction block using List.reverseRecOn with
  | nil => exact absurd rfl h
  | append_singleton pre t ih =>
    rw [accOf_snoc]
    by_cases hpre : pre = []
    · subst hpre
      exact aggregates_start t
    · rw [Acc.add_of_active (accOf_active.mpr hpre)]
      exact (ih hpre).extend t

end Block

/-! ## The blocks of `on_time` -/

section Time

variable {T : UInt64} {trades : List TradeEvent} {bars : List Acc} {a : Acc}

/-- **`on_time` cuts the trades into consecutive blocks** of at least two, and an open one. -/
theorem TimeRun.blocks (h : TimeRun T trades bars a) :
    ∃ (closed : List (List TradeEvent)) (rest : List TradeEvent),
      trades = closed.flatten ++ rest ∧ bars = closed.map accOf ∧ a = accOf rest ∧
        ∀ block ∈ closed, 2 ≤ block.length := by
  induction h with
  | nil => exact ⟨[], [], rfl, rfl, rfl, fun _ hb => nomatch hb⟩
  | @snoc trades bars a t _ ih =>
    obtain ⟨closed, rest, rfl, rfl, rfl, htwo⟩ := ih
    by_cases hclose : (accOf rest).active = true ∧ T ≤ t.tsNs - (accOf rest).startTs
    · -- the trade closes the open block
      refine ⟨closed ++ [rest ++ [t]], [], ?_, ?_, ?_, ?_⟩
      · rw [List.flatten_append, List.flatten_singleton, List.append_nil, List.append_assoc]
      · rw [timeStep_close hclose.1 hclose.2, List.map_append, List.map_singleton, accOf_snoc,
          Acc.add_of_active hclose.1]
      · rw [timeStep_close hclose.1 hclose.2]
        rfl
      · intro block hblock
        rcases List.mem_append.mp hblock with hblock | hblock
        · exact htwo block hblock
        · rw [List.mem_singleton.mp hblock, List.length_append]
          have hpos := List.length_pos_iff.mpr (accOf_active.mp hclose.1)
          exact Nat.succ_le_succ hpos
    · have hstep : timeStep T (accOf rest) t = (accOf (rest ++ [t]), []) := by
        rw [accOf_snoc]
        unfold timeStep
        rw [if_neg hclose]
      refine ⟨closed, rest ++ [t], ?_, ?_, ?_, htwo⟩
      · rw [List.append_assoc]
      · rw [hstep, List.append_nil]
      · rw [hstep]

/-- The blocks of the bars that are in the log after a flush. -/
theorem TimeRun.partition (h : TimeRun T trades bars a) (symbolId : UInt32) (type : UInt8) :
    ∃ blocks : List (List TradeEvent), blocks.flatten = trades ∧ (∀ block ∈ blocks, block ≠ []) ∧
      List.Forall₂ Aggregates blocks
        ((bars ++ if a.active = true then [a] else []).map
          fun a => BarCall.bar ⟨symbolId, a, type⟩) ∧
      ∀ block ∈ blocks.dropLast, 2 ≤ block.length := by
  obtain ⟨closed, rest, rfl, rfl, rfl, htwo⟩ := h.blocks
  have hne : ∀ block ∈ closed, block ≠ [] := fun block hblock =>
    List.length_pos_iff.mp (Nat.lt_of_lt_of_le Nat.two_pos (htwo block hblock))
  have hclosed : List.Forall₂ Aggregates closed
      ((closed.map accOf).map fun a => BarCall.bar ⟨symbolId, a, type⟩) := by
    rw [List.map_map, List.forall₂_map_right_iff, List.forall₂_same]
    exact fun block hblock => accOf_aggregates (hne block hblock)
  by_cases hrest : rest = []
  · subst hrest
    rw [if_neg (fun hactive => accOf_active.mp hactive rfl), List.append_nil, List.append_nil]
    exact ⟨closed, rfl, hne, hclosed, fun block hblock => htwo block (List.mem_of_mem_dropLast hblock)⟩
  · rw [if_pos (accOf_active.mpr hrest), List.map_append]
    refine ⟨closed ++ [rest], ?_, ?_, ?_, ?_⟩
    · rw [List.flatten_append, List.flatten_singleton]
    · intro block hblock
      rcases List.mem_append.mp hblock with hblock | hblock
      · exact hne block hblock
      · rw [List.mem_singleton.mp hblock]
        exact hrest
    · exact List.rel_append hclosed (.cons (accOf_aggregates hrest) .nil)
    · rw [List.dropLast_concat]
      exact htwo

end Time

/-! ## The counters -/

theorem writeBars_counts (calls : List BarCall) :
    (writeBars calls).timeBars = calls.countP (fun c => c.type == 0) ∧
      (writeBars calls).volumeBars = calls.countP (fun c => !(c.type == 0)) := by
  induction calls using List.reverseRecOn with
  | nil => exact ⟨rfl, rfl⟩
  | append_singleton pre c ih =>
    rw [writeBars_append, List.countP_append, List.countP_append, List.countP_singleton,
      List.countP_singleton, ← ih.1, ← ih.2]
    show ((writeBars pre).writeBar c.symbolId c.acc c.type).timeBars = _ ∧
      ((writeBars pre).writeBar c.symbolId c.acc c.type).volumeBars = _
    unfold BarOutput.writeBar
    by_cases htype : c.type = 0
    · simp [htype]
    · simp [htype]

/-- The counters are the numbers of records of each kind. -/
theorem counts_of_known {calls : List BarCall} (h : ∀ c ∈ calls, c.type = 0 ∨ c.type = 1) :
    (writeBars calls).timeBars = (calls.map BarCall.bar).countP (fun b => b.barType == 0) ∧
      (writeBars calls).volumeBars = (calls.map BarCall.bar).countP (fun b => b.barType == 1) := by
  rw [(writeBars_counts calls).1, (writeBars_counts calls).2, List.countP_map, List.countP_map]
  constructor
  · refine List.countP_congr fun c hc => ?_
    rcases h c hc with htype | htype <;> simp [BarCall.bar, htype]
  · refine List.countP_congr fun c hc => ?_
    rcases h c hc with htype | htype <;> simp [BarCall.bar, htype]

/-! ## Time bars partition the trades -/

/-- **Every trade is in exactly one time bar of its symbol**, for any timestamps, and the two counters
count the records. -/
theorem time_bars_partition (T V : UInt64) (hV : V ≠ 0) (trades : List TradeEvent) :
    ∃ g bars, runBars T V (trades.map .trade ++ [.flush]) = some g ∧
      readBars g.output.out = .ok bars ∧
      (∀ symbolId : UInt32, symbolId.toNat < kMaxSymbols → ∃ blocks : List (List TradeEvent),
        blocks.flatten = tradesOf symbolId trades ∧ (∀ block ∈ blocks, block ≠ []) ∧
        List.Forall₂ Aggregates blocks (barsOf bars symbolId 0) ∧
        ∀ block ∈ blocks.dropLast, 2 ≤ block.length) ∧
      g.output.timeBars = bars.countP (fun b => b.barType == 0) ∧
      g.output.volumeBars = bars.countP (fun b => b.barType == 1) := by
  obtain ⟨g, hrun⟩ := runBars_isSome (T := T) hV trades
  obtain ⟨calls, htracks⟩ := runBars_tracks hrun
  obtain ⟨hflush, hout, hread⟩ := htracks.log hrun
  refine ⟨g.flushAll, _, hflush, hread, ?_, ?_⟩
  · intro symbolId hsym
    rw [barsOf_map, barsFor_append, openBars_time g hsym]
    exact (htracks.time symbolId hsym).partition symbolId 0
  · rw [hout]
    apply counts_of_known
    intro c hc
    rcases List.mem_append.mp hc with hc | hc
    · exact (htracks.known c hc).2
    · exact (openBars_known c hc).2

/-- Two symbols; the second trade of symbol 0 closes its bar. -/
def sampleTrades : List TradeEvent :=
  [⟨0, 50, 6, .buy, 1, 100, 1⟩, ⟨1, 7, 1, .sell, 2, 110, 2⟩, ⟨0, 60, 6, .buy, 3, 2000, 3⟩,
    ⟨0, 55, 3, .sell, 4, 2100, 4⟩]

theorem time_bars_partition_sample :
    ∃ g bars, runBars 1000 10 (sampleTrades.map .trade ++ [.flush]) = some g ∧
      readBars g.output.out = .ok bars ∧
      g.output.timeBars = bars.countP (fun b => b.barType == 0) := by
  obtain ⟨g, bars, hrun, hread, -, hcount, -⟩ :=
    time_bars_partition 1000 10 (by decide) sampleTrades
  exact ⟨g, bars, hrun, hread, hcount⟩

/-! ## The interval of a bar -/

/-- Every trade is stamped less than `T` after the first one. -/
def Within (T : UInt64) (block : List TradeEvent) : Prop :=
  ∀ first t, block.head? = some first → t ∈ block → t.tsNs.toNat < first.tsNs.toNat + T.toNat

/-- The bars are those of consecutive blocks, and no block goes beyond its interval. -/
def OwnInterval (T : UInt64) (trades : List TradeEvent) (bars : List Bar) : Prop :=
  ∃ blocks : List (List TradeEvent), blocks.flatten = trades ∧ List.Forall₂ Aggregates blocks bars ∧
    ∀ block ∈ blocks, Within T block

/-- The timestamps never go back. -/
def Stamped (trades : List TradeEvent) : Prop := trades.Pairwise fun t t' => t.tsNs ≤ t'.tsNs

instance (trades : List TradeEvent) : Decidable (Stamped trades) :=
  inferInstanceAs (Decidable (List.Pairwise _ _))

section Interval

variable {T : UInt64} {trades : List TradeEvent} {bars : List Acc} {a : Acc} {first t : TradeEvent}

theorem Stamped.first_le (h : Stamped trades) (hfirst : trades.head? = some first) (ht : t ∈ trades) :
    first.tsNs.toNat ≤ t.tsNs.toNat := by
  cases trades with
  | nil => cases hfirst
  | cons x rest =>
    obtain rfl := Option.some.inj hfirst
    rcases List.mem_cons.mp ht with rfl | ht
    · exact le_rfl
    · exact UInt64.le_iff_toNat_le.mp ((List.pairwise_cons.mp h).1 t ht)

theorem Stamped.le_last (h : Stamped trades) {last : TradeEvent}
    (hlast : trades.getLast? = some last) (ht : t ∈ trades) : t.tsNs.toNat ≤ last.tsNs.toNat := by
  obtain ⟨init, rfl⟩ := List.getLast?_eq_some_iff.mp hlast
  rcases List.mem_append.mp ht with ht | ht
  · exact UInt64.le_iff_toNat_le.mp
      ((List.pairwise_append.mp h).2.2 t ht last (List.mem_singleton.mpr rfl))
  · rw [List.mem_singleton.mp ht]

/-- A bar of `OwnInterval` is shorter than `T`. -/
theorem OwnInterval.short {bars : List Bar} (h : OwnInterval T trades bars) :
    ∀ bar ∈ bars, bar.endTsNs < bar.startTsNs + T.toNat := by
  obtain ⟨blocks, -, haggregates, hwithin⟩ := h
  induction haggregates with
  | nil => exact fun _ hbar => nomatch hbar
  | @cons block bar blocks bars hblock _ ih =>
    intro bar' hbar
    rcases List.mem_cons.mp hbar with rfl | hbar
    · obtain ⟨first, hhead, -, hstart⟩ := hblock.first
      obtain ⟨last, hlast, -, hend⟩ := hblock.last
      rw [hstart, hend]
      exact hwithin block List.mem_cons_self first last hhead (List.mem_of_getLast? hlast)
    · exact ih (fun b hb => hwithin b (List.mem_cons_of_mem _ hb)) bar' hbar

/-- A bar that `on_time` closes ends at least `T` behind its start, in 64-bit arithmetic. -/
theorem TimeRun.closed_late (h : TimeRun T trades bars a) :
    ∀ bar ∈ bars, T ≤ bar.endTs - bar.startTs := by
  induction h with
  | nil => exact fun _ hbar => nomatch hbar
  | @snoc trades bars a t _ ih =>
    intro bar hbar
    rcases List.mem_append.mp hbar with hbar | hbar
    · exact ih bar hbar
    · unfold timeStep at hbar
      split_ifs at hbar with hclose
      · rw [List.mem_singleton.mp hbar]
        exact hclose.2
      · cases hbar

/-- Where no bar is closed the accumulator holds all trades. -/
theorem TimeRun.acc_of_open (h : TimeRun T trades [] a) : a = accOf trades := by
  obtain ⟨closed, rest, rfl, hbars, rfl, -⟩ := h.blocks
  rw [List.map_eq_nil_iff.mp hbars.symm]
  rfl

theorem accOf_startTs (h : trades.head? = some first) : (accOf trades).startTs = first.tsNs := by
  have hne : trades ≠ [] := by
    rintro rfl
    cases h
  have hbar : Aggregates trades (BarCall.bar ⟨0, accOf trades, 0⟩) := accOf_aggregates hne
  obtain ⟨t, hhead, -, hstart⟩ := hbar.first
  rw [h] at hhead
  obtain rfl := Option.some.inj hhead
  exact UInt64.toNat_inj.mp hstart

theorem accOf_endTs {last : TradeEvent} (h : trades.getLast? = some last) :
    (accOf trades).endTs = last.tsNs := by
  obtain ⟨init, rfl⟩ := List.getLast?_eq_some_iff.mp h
  rw [accOf_snoc, Acc.add_endTs]

/-- Trades that stay within the interval of the first one close no bar. -/
theorem TimeRun.no_close (h : TimeRun T trades bars a) (hstamped : Stamped trades)
    (hwithin : Within T trades) : bars = [] := by
  induction h with
  | nil => rfl
  | @snoc trades bars a t hrun ih =>
    have hpre : bars = [] := by
      refine ih (List.pairwise_append.mp hstamped).1 fun first t' hfirst ht' => ?_
      exact hwithin first t' (by rw [List.head?_append, hfirst]; rfl) (List.mem_append_left _ ht')
    subst hpre
    rw [hrun.acc_of_open, List.nil_append]
    unfold timeStep
    rw [if_neg]
    rintro ⟨hactive, hclose⟩
    obtain ⟨first, rest, rfl⟩ := List.exists_cons_of_ne_nil (accOf_active.mp hactive)
    have hmem : t ∈ first :: rest ++ [t] := List.mem_append_right _ (List.mem_singleton.mpr rfl)
    have hle := hstamped.first_le rfl hmem
    have hlt := hwithin first t rfl hmem
    rw [accOf_startTs rfl, UInt64.le_iff_toNat_le,
      UInt64.toNat_sub_of_le _ _ (UInt64.le_iff_toNat_le.mpr hle)] at hclose
    omega

/-- A block whose timestamps never go back ends behind its start. -/
theorem Stamped.start_le_end (h : Stamped trades) (hne : trades ≠ []) :
    (accOf trades).startTs ≤ (accOf trades).endTs := by
  obtain ⟨first, rest, rfl⟩ := List.exists_cons_of_ne_nil hne
  have hlast := List.getLast?_eq_some_getLast hne
  rw [accOf_startTs rfl, accOf_endTs hlast, UInt64.le_iff_toNat_le]
  exact h.first_le rfl (List.mem_of_getLast? hlast)

/-- If the timestamps never go back it really is that late. -/
theorem TimeRun.closed_long (h : TimeRun T trades bars a) (hstamped : Stamped trades) :
    ∀ bar ∈ bars, bar.startTs.toNat + T.toNat ≤ bar.endTs.toNat := by
  intro bar hbar
  have hlate := h.closed_late bar hbar
  obtain ⟨closed, rest, rfl, rfl, -, htwo⟩ := h.blocks
  obtain ⟨block, hblock, rfl⟩ := List.mem_map.mp hbar
  have hne : block ≠ [] := List.length_pos_iff.mp (Nat.lt_of_lt_of_le Nat.two_pos (htwo block hblock))
  have hsorted : Stamped block := List.Pairwise.sublist
    ((List.sublist_flatten_of_mem hblock).trans (List.sublist_append_left _ _)) hstamped
  have hle := hsorted.start_le_end hne
  rw [UInt64.le_iff_toNat_le, UInt64.toNat_sub_of_le _ _ hle] at hlate
  rw [UInt64.le_iff_toNat_le] at hle
  omega

/-- **One symbol**: its bars keep to their intervals exactly if none is ever closed. -/
theorem TimeRun.ownInterval_iff (h : TimeRun T trades bars a) (hstamped : Stamped trades)
    (symbolId : UInt32) :
    OwnInterval T trades ((bars ++ if a.active = true then [a] else []).map
      fun a => BarCall.bar ⟨symbolId, a, 0⟩) ↔ Within T trades := by
  constructor
  · intro hown
    have hshort : ∀ bar ∈ bars ++ (if a.active = true then [a] else []),
        bar.endTs.toNat < bar.startTs.toNat + T.toNat :=
      fun bar hbar => hown.short _ (List.mem_map_of_mem hbar)
    -- a closed bar is too long
    have hnone : bars = [] := by
      rw [List.eq_nil_iff_forall_not_mem]
      intro bar hbar
      exact absurd (hshort bar (List.mem_append_left _ hbar))
        (Nat.not_lt.mpr (h.closed_long hstamped bar hbar))
    subst hnone
    obtain rfl := h.acc_of_open
    intro first t hfirst ht
    have hne : trades ≠ [] := List.ne_nil_of_mem ht
    have hlast := List.getLast?_eq_some_getLast hne
    have hlt := hshort (accOf trades) (by rw [if_pos (accOf_active.mpr hne)]; simp)
    rw [accOf_startTs hfirst, accOf_endTs hlast] at hlt
    exact Nat.lt_of_le_of_lt (hstamped.le_last hlast ht) hlt
  · intro hwithin
    have hnone := h.no_close hstamped hwithin
    subst hnone
    obtain rfl := h.acc_of_open
    by_cases hne : trades = []
    · subst hne
      exact ⟨[], rfl, .nil, fun _ hblock => nomatch hblock⟩
    · rw [if_pos (accOf_active.mpr hne)]
      refine ⟨[trades], List.flatten_singleton, .cons (accOf_aggregates hne) .nil, ?_⟩
      intro block hblock
      rw [List.mem_singleton.mp hblock]
      exact hwithin

/-- The same of the log. -/
theorem Tracks.ownInterval_iff {V : UInt64} {g : BarAggregator} {calls : List BarCall}
    (h : Tracks T V trades g calls) {symbolId : UInt32} (hsym : symbolId.toNat < kMaxSymbols)
    (hstamped : Stamped (tradesOf symbolId trades)) :
    OwnInterval T (tradesOf symbolId trades)
        (barsOf ((calls ++ openBars g).map BarCall.bar) symbolId 0) ↔
      Within T (tradesOf symbolId trades) := by
  rw [barsOf_map, barsFor_append, openBars_time g hsym]
  exact (h.time symbolId hsym).ownInterval_iff hstamped symbolId

end Interval

/-- **A time bar keeps to its own interval exactly if the symbol's trades never leave the interval of
the first one.**  `on_time` adds a trade before it compares the times, so the trade that closes a bar is
in it although it belongs to the next; `on_volume` carries the surplus over. -/
theorem time_bar_interval (T V : UInt64) (trades : List TradeEvent)
    (hstamped : ∀ symbolId, Stamped (tradesOf symbolId trades)) (g : BarAggregator)
    (hrun : runBars T V (trades.map .trade ++ [.flush]) = some g) :
    (∃ bars, readBars g.output.out = .ok bars ∧
        ∀ symbolId : UInt32, symbolId.toNat < kMaxSymbols →
          OwnInterval T (tradesOf symbolId trades) (barsOf bars symbolId 0)) ↔
      ∀ symbolId : UInt32, symbolId.toNat < kMaxSymbols → Within T (tradesOf symbolId trades) := by
  rw [runBars_snoc] at hrun
  obtain ⟨g₀, hrun₀, hflush⟩ := Option.bind_eq_some_iff.mp hrun
  obtain rfl : g₀.flushAll = g := Option.some.inj hflush
  obtain ⟨calls, htracks⟩ := runBars_tracks hrun₀
  obtain ⟨-, -, hread⟩ := htracks.log hrun₀
  constructor
  · rintro ⟨bars, hbars, hown⟩ symbolId hsym
    rw [hread] at hbars
    obtain rfl := Except.ok.inj hbars
    exact (htracks.ownInterval_iff hsym (hstamped symbolId)).mp (hown symbolId hsym)
  · intro hwithin
    refine ⟨_, hread, fun symbolId hsym => ?_⟩
    exact (htracks.ownInterval_iff hsym (hstamped symbolId)).mpr (hwithin symbolId hsym)

/-- The trades of a list that never goes back. -/
theorem Stamped.tradesOf {trades : List TradeEvent} (h : Stamped trades) (symbolId : UInt32) :
    Stamped (tradesOf symbolId trades) := List.Pairwise.sublist List.filter_sublist h

/-- A second trade within the interval, or in a quiet market far behind it. -/
def twoTrades (tsNs : UInt64) : List TradeEvent :=
  [⟨0, 50, 6, .buy, 1, 100, 1⟩, ⟨0, 60, 6, .buy, 2, tsNs, 2⟩]

theorem time_bar_interval_calm :
    ∃ g bars, runBars 1000 100 ((twoTrades 900).map .trade ++ [.flush]) = some g ∧
      readBars g.output.out = .ok bars ∧
      OwnInterval 1000 (tradesOf 0 (twoTrades 900)) (barsOf bars 0 0) := by
  have hstamped : Stamped (twoTrades 900) := by decide
  have hwithin : Within 1000 (twoTrades 900) := by
    intro first t hfirst ht
    obtain rfl := Option.some.inj hfirst
    revert t
    decide
  obtain ⟨g₀, hrun₀⟩ := runBars_isSome (T := 1000) (V := 100) (by decide) (twoTrades 900)
  have hrun := runBars_flush hrun₀
  obtain ⟨bars, hread, hown⟩ := (time_bar_interval 1000 100 (twoTrades 900)
    hstamped.tradesOf _ hrun).mpr fun symbolId _ => by
      intro first t hfirst ht
      have hall : tradesOf symbolId (twoTrades 900) = twoTrades 900 ∨
          tradesOf symbolId (twoTrades 900) = [] := by
        by_cases h0 : (0 : UInt32) = symbolId
        · subst h0
          exact Or.inl rfl
        · exact Or.inr (by simp [tradesOf, twoTrades, h0])
      rcases hall with hall | hall
      · rw [hall] at hfirst ht
        exact hwithin first t hfirst ht
      · rw [hall] at ht
        cases ht
  exact ⟨_, bars, hrun, hread, hown 0 (by decide)⟩

/-- The bar that starts at 100 with `T = 1000` shows the trade of 2000. -/
theorem quiet_bar_too_long :
    ∃ g bars, runBars 1000 100 ((twoTrades 2000).map .trade ++ [.flush]) = some g ∧
      readBars g.output.out = .ok bars ∧
      ¬ OwnInterval 1000 (tradesOf 0 (twoTrades 2000)) (barsOf bars 0 0) := by
  obtain ⟨g, hrun⟩ := runBars_isSome (T := 1000) (V := 100) (by decide) (twoTrades 2000)
  obtain ⟨calls, htracks⟩ := runBars_tracks hrun
  obtain ⟨hflush, -, hread⟩ := htracks.log hrun
  have hstamped : Stamped (tradesOf 0 (twoTrades 2000)) := by decide
  refine ⟨_, _, hflush, hread, fun hown => ?_⟩
  have hwithin := (htracks.ownInterval_iff (by decide) hstamped).mp hown
  exact absurd (hwithin ⟨0, 50, 6, .buy, 1, 100, 1⟩ ⟨0, 60, 6, .buy, 2, 2000, 2⟩ rfl (by decide))
    (by decide)

end MarketDataPipeline.Bars
