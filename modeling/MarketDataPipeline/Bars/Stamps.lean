/-
# MarketDataPipeline.Bars.Stamps — the timestamps and prices of a record.

The prices of a record are in order for any trades, since every function that touches `high` and `low`
keeps `open` and `close` between them.  The timestamps are not: the trades come from the wire as they
are, `on_time` takes the elapsed time as a difference of unsigned numbers, and neither function compares
the stamp of a trade with the start of the bar it is added to.  A trade that is stamped before that start
(`BarAggregator.Early`) is in a record that ends before it starts, and nothing else is
(`bar_log_well_formed`).
-/
import MarketDataPipeline.Bars.TimeBars

namespace MarketDataPipeline.Bars

open MarketDataPipeline.Book
open MarketDataPipeline.Feed

/-! ## Records in order -/

/-- The prices lie between `low` and `high`. -/
structure Bar.PricesInOrder (b : Bar) : Prop where
  low_le_open : b.low ≤ b.openPrice
  open_le_high : b.openPrice ≤ b.high
  low_le_close : b.low ≤ b.close
  close_le_high : b.close ≤ b.high

/-- The prices are in order, and the record does not end before it starts. -/
structure Bar.WellFormed (b : Bar) : Prop extends b.PricesInOrder where
  start_le_end : b.startTsNs ≤ b.endTsNs

namespace Acc

/-- The prices of an accumulator are in order. -/
structure Ranged (a : Acc) : Prop where
  low_le_open : a.low.toNat ≤ a.openPrice.toNat
  open_le_high : a.openPrice.toNat ≤ a.high.toNat
  low_le_close : a.low.toNat ≤ a.close.toNat
  close_le_high : a.close.toNat ≤ a.high.toNat

/-- Its timestamps are in order. -/
def Ordered (a : Acc) : Prop := a.startTs.toNat ≤ a.endTs.toNat

variable {a : Acc} {t : TradeEvent}

theorem ranged_empty : Ranged {} := ⟨le_rfl, le_rfl, le_rfl, le_rfl⟩

theorem ranged_start (t : TradeEvent) : (start t).Ranged := ⟨le_rfl, le_rfl, le_rfl, le_rfl⟩

theorem ranged_carry (a : Acc) (t : TradeEvent) (leftover : UInt64) : (a.carry t leftover).Ranged :=
  ⟨le_rfl, le_rfl, le_rfl, le_rfl⟩

theorem Ranged.extend (h : a.Ranged) (t : TradeEvent) : (a.extend t).Ranged where
  low_le_open := by
    rw [extend_low]
    exact le_trans (min_le_right _ _) h.low_le_open
  open_le_high := by
    rw [extend_high]
    exact le_trans h.open_le_high (le_max_right _ _)
  low_le_close := by
    rw [extend_low]
    exact min_le_left _ _
  close_le_high := by
    rw [extend_high]
    exact le_max_left _ _

theorem Ranged.add (h : a.Ranged) (t : TradeEvent) : (a.add t).Ranged := by
  cases hactive : a.active with
  | false => rw [add_inactive hactive]; exact ranged_start t
  | true => rw [add_of_active hactive]; exact h.extend t

end Acc

/-! ## Early trades -/

/-- The trade is stamped before the start of the time bar it is added to, or of the volume bar; a volume
bar without any volume is never written. -/
def BarAggregator.Early (g : BarAggregator) (t : TradeEvent) : Prop :=
  t.symbolId.toNat < kMaxSymbols ∧
    (((g.timeAcc (symbolSlot t.symbolId)).active = true ∧
        t.tsNs < (g.timeAcc (symbolSlot t.symbolId)).startTs) ∨
      ((g.volAcc (symbolSlot t.symbolId)).active = true ∧
        (g.volAcc (symbolSlot t.symbolId)).volume + t.qty.toUInt64 ≠ 0 ∧
        t.tsNs < (g.volAcc (symbolSlot t.symbolId)).startTs))

/-! ## What every call keeps -/

/-- The bars that are written have `W`, and the accumulators have what makes the next ones have it. -/
structure Keeps (W time volume : Acc → Prop) (g : BarAggregator) (calls : List BarCall) : Prop where
  output : g.output = writeBars calls
  written : ∀ c ∈ calls, W c.acc
  timeAcc : ∀ s, time (g.timeAcc s)
  volAcc : ∀ s, volume (g.volAcc s)

section Steps

variable {T V : UInt64} {a a' : Acc} {out : List Acc} {t : TradeEvent} {g g' : BarAggregator}
  {calls : List BarCall} {W time volume : Acc → Prop}

/-- The rule for one trade: it is enough to look at the accumulators of its symbol. -/
theorem Keeps.onTrade (h : Keeps W time volume g calls) (hstep : g.onTrade t = some g')
    (htime : t.symbolId.toNat < kMaxSymbols → time (g.timeAcc (symbolSlot t.symbolId)) →
      let r := timeStep g.timeBarNs (g.timeAcc (symbolSlot t.symbolId)) t
      (∀ b ∈ r.2, W b) ∧ time r.1)
    (hvolume : t.symbolId.toNat < kMaxSymbols → volume (g.volAcc (symbolSlot t.symbolId)) →
      ∀ out a, Drains g.volumeBarQty t ((g.volAcc (symbolSlot t.symbolId)).add t) out a →
        (∀ b ∈ out, W b) ∧ volume a) :
    ∃ new, Keeps W time volume g' (calls ++ new) := by
  rcases BarAggregator.onTrade_cases hstep with ⟨-, rfl⟩ | ⟨hin, out, a, hdrains, rfl⟩
  · exact ⟨[], by rw [List.append_nil]; exact h⟩
  · obtain ⟨hclosed, hrest⟩ := htime hin (h.timeAcc _)
    obtain ⟨hfilled, hleft⟩ := hvolume hin (h.volAcc _) out a hdrains
    let r := timeStep g.timeBarNs (g.timeAcc (symbolSlot t.symbolId)) t
    refine ⟨callsOf t.symbolId 0 r.2 ++ callsOf t.symbolId 1 out, ?_, ?_, ?_, ?_⟩
    · rw [writeBars_append, ← h.output]
    · refine List.forall_mem_append.mpr ⟨h.written, List.forall_mem_append.mpr ⟨?_, ?_⟩⟩
      · exact List.forall_mem_map.mpr hclosed
      · exact List.forall_mem_map.mpr hfilled
    · intro s
      dsimp only
      by_cases hs : s = symbolSlot t.symbolId
      · rw [hs, Function.update_self]
        exact hrest
      · rw [Function.update_of_ne hs]
        exact h.timeAcc s
    · intro s
      dsimp only
      by_cases hs : s = symbolSlot t.symbolId
      · rw [hs, Function.update_self]
        exact hleft
      · rw [Function.update_of_ne hs]
        exact h.volAcc s

/-- The rule for the flush at the end. -/
theorem Keeps.log (h : Keeps W time volume g calls) (htime : ∀ a, time a → W a)
    (hvolume : ∀ a, volume a → a.volume ≠ 0 → W a) {bars : List Bar}
    (hread : readBars g.flushAll.output.out = .ok bars) :
    ∀ b ∈ bars, ∃ c : BarCall, W c.acc ∧ c.bar = b := by
  rw [(flushAll_log h.output).2] at hread
  obtain rfl := Except.ok.inj hread
  refine List.forall_mem_map.mpr fun c hc => ⟨c, ?_, rfl⟩
  rcases List.mem_append.mp hc with hc | hc
  · exact h.written c hc
  · obtain ⟨s, -, hc⟩ := List.mem_flatMap.mp hc
    rcases List.mem_append.mp hc with hc | hc
    · split_ifs at hc
      · rw [List.mem_singleton.mp hc]
        exact htime _ (h.timeAcc s)
      · cases hc
    · split_ifs at hc with hopen
      · rw [List.mem_singleton.mp hc]
        exact hvolume _ (h.volAcc s) (UInt64.pos_iff_ne_zero.mp hopen.2)
      · cases hc

/-! ### Prices -/

theorem timeStep_ranged (h : a.Ranged) :
    (∀ b ∈ (timeStep T a t).2, b.Ranged) ∧ (timeStep T a t).1.Ranged := by
  unfold timeStep
  split_ifs
  · exact ⟨List.forall_mem_singleton.mpr (h.extend t), Acc.ranged_empty⟩
  · exact ⟨List.forall_mem_nil _, h.add t⟩

theorem Drains.ranged (h : Drains V t a out a') (hranged : a.Ranged) :
    (∀ b ∈ out, b.Ranged) ∧ a'.Ranged := by
  induction h with
  | stop _ => exact ⟨List.forall_mem_nil _, hranged⟩
  | exact _ _ =>
    obtain ⟨hlo, hoh, hlc, hch⟩ := hranged
    exact ⟨List.forall_mem_singleton.mpr ⟨hlo, hoh, hlc, hch⟩, Acc.ranged_empty⟩
  | carry _ _ _ ih =>
    obtain ⟨hout, hrest⟩ := ih (Acc.ranged_carry _ t _)
    obtain ⟨hlo, hoh, hlc, hch⟩ := hranged
    exact ⟨List.forall_mem_cons.mpr ⟨⟨hlo, hoh, hlc, hch⟩, hout⟩, hrest⟩

/-- **The prices are in order in every run.** -/
theorem runBars_ranged {trades : List TradeEvent} (h : runBars T V (trades.map .trade) = some g) :
    ∃ calls, Keeps Acc.Ranged Acc.Ranged Acc.Ranged g calls := by
  refine runTrades_induction
    (motive := fun _ g => ∃ calls, Keeps Acc.Ranged Acc.Ranged Acc.Ranged g calls) ?_ ?_ h
  · exact ⟨[], rfl, List.forall_mem_nil _, fun _ => Acc.ranged_empty, fun _ => Acc.ranged_empty⟩
  · rintro pre t g g' - ⟨calls, hcalls⟩ hstep
    obtain ⟨new, hnew⟩ := hcalls.onTrade hstep (fun _ hranged => timeStep_ranged hranged)
      (fun _ hranged out a hdrains => hdrains.ranged (hranged.add t))
    exact ⟨calls ++ new, hnew⟩

/-- The prices of every record are in order, for any trades. -/
theorem prices_in_order {trades : List TradeEvent} {bars : List Bar}
    (h : runBars T V (trades.map .trade) = some g)
    (hread : readBars g.flushAll.output.out = .ok bars) : ∀ b ∈ bars, b.PricesInOrder := by
  obtain ⟨calls, hkeeps⟩ := runBars_ranged h
  intro b hb
  obtain ⟨c, hranged, rfl⟩ := hkeeps.log (fun _ ha => ha) (fun _ ha _ => ha) hread b hb
  exact ⟨hranged.low_le_open, hranged.open_le_high, hranged.low_le_close, hranged.close_le_high⟩

/-! ### Timestamps -/

/-- A trade leaves an accumulator in order that it does not precede. -/
theorem Acc.ordered_add (h : a.active = true → a.startTs.toNat ≤ t.tsNs.toNat) : (a.add t).Ordered := by
  cases hactive : a.active with
  | false => rw [add_inactive hactive]; exact le_rfl
  | true => rw [add_of_active hactive]; exact h hactive

theorem timeStep_ordered (h : a.active = true → a.startTs.toNat ≤ t.tsNs.toNat) :
    (∀ b ∈ (timeStep T a t).2, b.Ordered) ∧ (timeStep T a t).1.Ordered := by
  unfold timeStep
  split_ifs with hclose
  · exact ⟨List.forall_mem_singleton.mpr (h hclose.1), le_rfl⟩
  · exact ⟨List.forall_mem_nil _, Acc.ordered_add h⟩

/-- The loop of `on_volume` writes bars in order, since a bar that is written has a volume. -/
theorem Drains.ordered (h : Drains V t a out a') (hV : V ≠ 0) (hordered : a.volume ≠ 0 → a.Ordered)
    (hend : a.endTs = t.tsNs) :
    (∀ b ∈ out, b.Ordered) ∧ (a'.volume ≠ 0 → a'.Ordered) := by
  have hfilled : ∀ {b : Acc}, V ≤ b.volume → b.volume ≠ 0 := by
    intro b hle
    exact UInt64.pos_iff_ne_zero.mp (UInt64.lt_of_lt_of_le (UInt64.pos_iff_ne_zero.mpr hV) hle)
  induction h with
  | stop _ => exact ⟨List.forall_mem_nil _, hordered⟩
  | exact hgo _ => exact ⟨List.forall_mem_singleton.mpr (hordered (hfilled hgo.2)), fun _ => le_rfl⟩
  | @carry a a' out hgo _ _ ih =>
    have hnext : (a.carry t (a.volume - V)).Ordered := by
      show t.tsNs.toNat ≤ a.endTs.toNat
      rw [hend]
    obtain ⟨hout, hrest⟩ := ih (fun _ => hnext) hend
    exact ⟨List.forall_mem_cons.mpr ⟨hordered (hfilled hgo.2), hout⟩, hrest⟩

/-- **What a run without early trades keeps.** -/
def InOrder (g : BarAggregator) (calls : List BarCall) : Prop :=
  Keeps Acc.Ordered Acc.Ordered (fun a => a.volume ≠ 0 → a.Ordered) g calls

theorem mem_openBars_time {s : Fin kMaxSymbols} (h : (g.timeAcc s).active = true) :
    ⟨UInt32.ofNat s, g.timeAcc s, 0⟩ ∈ openBars g := by
  refine List.mem_flatMap.mpr ⟨s, List.mem_finRange s, List.mem_append_left _ ?_⟩
  rw [if_pos h]
  exact List.mem_singleton.mpr rfl

theorem mem_openBars_volume {s : Fin kMaxSymbols} (h : (g.volAcc s).active = true)
    (hvol : (g.volAcc s).volume ≠ 0) : ⟨UInt32.ofNat s, g.volAcc s, 1⟩ ∈ openBars g := by
  refine List.mem_flatMap.mpr ⟨s, List.mem_finRange s, List.mem_append_right _ ?_⟩
  rw [if_pos ⟨h, UInt64.pos_iff_ne_zero.mpr hvol⟩]
  exact List.mem_singleton.mpr rfl

/-- An accumulator out of order is written as it is, or kept. -/
theorem Drains.broken (h : Drains V t a out a') (hbroken : ¬ a.Ordered) :
    (∃ b ∈ out, ¬ b.Ordered) ∨ a' = a := by
  cases h with
  | stop _ => exact Or.inr rfl
  | exact _ _ => exact Or.inl ⟨_, List.mem_singleton.mpr rfl, hbroken⟩
  | carry _ _ _ => exact Or.inl ⟨_, List.mem_cons_self, hbroken⟩

theorem Acc.not_ordered_add (hactive : a.active = true) (hlt : t.tsNs < a.startTs) :
    ¬ (a.add t).Ordered := by
  rw [add_of_active hactive]
  exact Nat.not_le.mpr (UInt64.lt_iff_toNat_lt.mp hlt)

/-- A time bar that a trade precedes is written as it is, or kept. -/
theorem timeStep_broken (hactive : a.active = true) (hlt : t.tsNs < a.startTs) :
    (∃ b ∈ (timeStep T a t).2, ¬ b.Ordered) ∨ (timeStep T a t).1 = a.add t := by
  have hbroken := Acc.not_ordered_add hactive hlt
  by_cases hclose : T ≤ t.tsNs - a.startTs
  · -- the elapsed time has wrapped around to a large number
    rw [timeStep_close hactive hclose]
    rw [Acc.add_of_active hactive] at hbroken
    exact Or.inl ⟨_, List.mem_singleton.mpr rfl, hbroken⟩
  · rw [timeStep_keep hactive hclose, Acc.add_of_active hactive]
    exact Or.inr rfl

/-- **An early trade is in a record that ends before it starts**, at the latest after a flush. -/
theorem BarAggregator.Early.broken (hearly : g.Early t) (hstep : g.onTrade t = some g')
    (hout : g.output = writeBars calls) :
    ∃ calls', g'.output = writeBars calls' ∧ ∃ c ∈ calls' ++ openBars g', ¬ c.acc.Ordered := by
  obtain ⟨hin, hcase⟩ := hearly
  rcases BarAggregator.onTrade_cases hstep with ⟨hno, -⟩ | ⟨-, out, a, hdrains, rfl⟩
  · exact absurd hin (Nat.not_lt.mpr hno)
  · let r := timeStep g.timeBarNs (g.timeAcc (symbolSlot t.symbolId)) t
    refine ⟨calls ++ (callsOf t.symbolId 0 r.2 ++ callsOf t.symbolId 1 out),
      by rw [writeBars_append, ← hout], ?_⟩
    rcases hcase with ⟨hactive, hlt⟩ | ⟨hactive, hvol, hlt⟩
    · rcases timeStep_broken hactive hlt with ⟨b, hb, hnot⟩ | hkept
      · refine ⟨⟨t.symbolId, b, 0⟩, List.mem_append_left _ (List.mem_append_right _ ?_), hnot⟩
        exact List.mem_append_left _ (List.mem_map_of_mem hb)
      · refine ⟨_, List.mem_append_right _ (mem_openBars_time (s := symbolSlot t.symbolId) ?_), ?_⟩
        · dsimp only
          rw [Function.update_self, hkept]
          exact Acc.add_active _
        · dsimp only
          rw [Function.update_self, hkept]
          exact Acc.not_ordered_add hactive hlt
    · rcases hdrains.broken (Acc.not_ordered_add hactive hlt) with ⟨b, hb, hnot⟩ | rfl
      · refine ⟨⟨t.symbolId, b, 1⟩, List.mem_append_left _ (List.mem_append_right _ ?_), hnot⟩
        exact List.mem_append_right _ (List.mem_map_of_mem hb)
      · refine ⟨_, List.mem_append_right _
          (mem_openBars_volume (s := symbolSlot t.symbolId) ?_ ?_), ?_⟩
        · dsimp only
          rw [Function.update_self]
          exact Acc.add_active _
        · dsimp only
          rw [Function.update_self, Acc.add_of_active hactive]
          exact hvol
        · dsimp only
          rw [Function.update_self]
          exact Acc.not_ordered_add hactive hlt

/-- `on_time` writes a bar only if the difference of the stamps, in 64 bits, is that of a bar. -/
theorem onTime_closes {symbolId : UInt32}
    (h : (g.onTime symbolId t).output.timeBars ≠ g.output.timeBars) :
    (g.timeAcc (symbolSlot symbolId)).active = true ∧
      g.timeBarNs ≤ t.tsNs - (g.timeAcc (symbolSlot symbolId)).startTs := by
  by_contra hno
  apply h
  rw [BarAggregator.onTime_eq]
  unfold timeStep
  rw [if_neg hno]
  rfl

end Steps

/-! ## The log -/

/-- None of the trades is early when it arrives. -/
def NoneEarly (T V : UInt64) (trades : List TradeEvent) : Prop :=
  ∀ pre t g, pre ++ [t] <+: trades → runBars T V (pre.map .trade) = some g → ¬ g.Early t

/-- **What is to hold of the log after every trade**: the records are well formed if the run ends there
with a flush, and `on_time` closes a bar only after its time. -/
structure SoundLog (T V : UInt64) (trades : List TradeEvent) : Prop where
  records : ∀ pre, pre <+: trades → ∃ g bars, runBars T V (pre.map .trade ++ [.flush]) = some g ∧
    readBars g.output.out = .ok bars ∧ ∀ b ∈ bars, b.WellFormed
  closings : ∀ pre t g, pre ++ [t] <+: trades → runBars T V (pre.map .trade) = some g →
    t.symbolId.toNat < kMaxSymbols →
    (g.onTime t.symbolId t).output.timeBars ≠ g.output.timeBars →
    (g.timeAcc (symbolSlot t.symbolId)).startTs.toNat + T.toNat ≤ t.tsNs.toNat

section Log

variable {T V : UInt64} {trades : List TradeEvent} {g : BarAggregator}

theorem NoneEarly.of_prefix {pre : List TradeEvent} (h : NoneEarly T V trades)
    (hpre : pre <+: trades) : NoneEarly T V pre :=
  fun init t g hinit => h init t g (hinit.trans hpre)

/-- The run: trades that are not early. -/
theorem runBars_inOrder (hV : V ≠ 0) (h : NoneEarly T V trades)
    (hrun : runBars T V (trades.map .trade) = some g) : ∃ calls, InOrder g calls := by
  refine runTrades_induction
    (motive := fun trades g => NoneEarly T V trades → ∃ calls, InOrder g calls) ?_ ?_ hrun h
  · exact fun _ => ⟨[], rfl, List.forall_mem_nil _, fun _ => le_rfl, fun _ _ => le_rfl⟩
  · intro pre t g g' hpre ih hstep hnone
    obtain ⟨calls, hcalls⟩ := ih (hnone.of_prefix (List.prefix_append _ _))
    have hlate : ¬ g.Early t := hnone pre t g List.prefix_rfl hpre
    obtain ⟨new, hnew⟩ := hcalls.onTrade hstep
      (fun hin _ => timeStep_ordered fun hactive => Nat.not_lt.mp fun hlt =>
        hlate ⟨hin, Or.inl ⟨hactive, UInt64.lt_iff_toNat_lt.mpr hlt⟩⟩)
      (fun hin _ out a hdrains => by
        rw [(runBars_sizes hpre).2] at hdrains
        refine hdrains.ordered hV (fun hvol => ?_) (Acc.add_endTs _ t)
        refine Acc.ordered_add fun hactive => Nat.not_lt.mp fun hlt => ?_
        rw [Acc.add_of_active hactive] at hvol
        exact hlate ⟨hin, Or.inr ⟨hactive, hvol, UInt64.lt_iff_toNat_lt.mpr hlt⟩⟩)
    exact ⟨calls ++ new, hnew⟩

/-- After an early trade and a flush a record of the log is not well formed. -/
theorem not_wellFormed_of_early (hV : V ≠ 0) {pre : List TradeEvent} {t : TradeEvent}
    (hrun : runBars T V (pre.map .trade) = some g) (hearly : g.Early t) :
    ∃ g' bars, runBars T V ((pre ++ [t]).map .trade ++ [.flush]) = some g' ∧
      readBars g'.output.out = .ok bars ∧ ∃ b ∈ bars, ¬ b.WellFormed := by
  obtain ⟨g', hrun'⟩ := runBars_isSome (T := T) hV (pre ++ [t])
  obtain ⟨calls, htracks⟩ := runBars_tracks hrun
  have hstep : g.onTrade t = some g' := by
    rw [List.map_append, List.map_singleton, runBars_snoc, hrun] at hrun'
    exact hrun'
  obtain ⟨calls', hout, c, hc, hbroken⟩ := hearly.broken hstep htracks.output
  refine ⟨g'.flushAll, _, runBars_flush hrun', (flushAll_log hout).2, c.bar,
    List.mem_map_of_mem hc, fun hwf => hbroken hwf.start_le_end⟩

end Log

/-- **The log is well formed after every trade exactly if no trade is stamped before the start of the bar
it is added to.**  The prices are in order in any case.  Exactness is for a flush after each prefix of
the trades; a log that is flushed once, after the last trade, is sound under the condition too, but a
later trade of the same bar may also mend its end. -/
theorem bar_log_well_formed (T V : UInt64) (hV : V ≠ 0) (trades : List TradeEvent) :
    SoundLog T V trades ↔ NoneEarly T V trades := by
  constructor
  · intro hsound pre t g hpre hrun hearly
    obtain ⟨g', bars, hrun', hread, b, hb, hnot⟩ := not_wellFormed_of_early hV hrun hearly
    obtain ⟨g'', bars', hrun'', hread', hall⟩ := hsound.records _ hpre
    rw [hrun'] at hrun''
    obtain rfl := Option.some.inj hrun''
    rw [hread] at hread'
    obtain rfl := Except.ok.inj hread'
    exact hnot (hall b hb)
  · intro hnone
    constructor
    · intro pre hpre
      obtain ⟨g, hrun⟩ := runBars_isSome (T := T) hV pre
      obtain ⟨calls, horder⟩ := runBars_inOrder hV (hnone.of_prefix hpre) hrun
      have hread := (flushAll_log horder.output).2
      refine ⟨g.flushAll, _, runBars_flush hrun, hread, fun b hb => ?_⟩
      obtain ⟨c, hordered, hc⟩ :=
        horder.log (fun _ ha => ha) (fun _ ha hvol => ha hvol) hread b hb
      exact ⟨prices_in_order hrun hread b hb, hc ▸ hordered⟩
    · intro pre t g hpre hrun hsym hclosed
      obtain ⟨hactive, hclose⟩ := onTime_closes hclosed
      have hle : (g.timeAcc (symbolSlot t.symbolId)).startTs.toNat ≤ t.tsNs.toNat :=
        Nat.not_lt.mp fun hlt => hnone pre t g hpre hrun
          ⟨hsym, Or.inl ⟨hactive, UInt64.lt_iff_toNat_lt.mpr hlt⟩⟩
      rw [(runBars_sizes hrun).1, UInt64.le_iff_toNat_le,
        UInt64.toNat_sub_of_le _ _ (UInt64.le_iff_toNat_le.mpr hle)] at hclose
      omega

/-! ## Timestamps that never go back -/

section Stamped

variable {T V : UInt64} {trades : List TradeEvent} {bars out : List Acc} {a a' : Acc} {t : TradeEvent}

theorem TimeRun.startTs (h : TimeRun T trades bars a) (hactive : a.active = true) :
    ∃ x ∈ trades, x.tsNs = a.startTs := by
  obtain ⟨closed, rest, rfl, -, rfl, -⟩ := h.blocks
  obtain ⟨first, rest, rfl⟩ := List.exists_cons_of_ne_nil (accOf_active.mp hactive)
  exact ⟨first, List.mem_append_right _ List.mem_cons_self, (accOf_startTs rfl).symm⟩

theorem Drains.startTs (h : Drains V t a out a') (hactive : a'.active = true) :
    a'.startTs = a.startTs ∨ a'.startTs = t.tsNs := by
  induction h with
  | stop _ => exact Or.inl rfl
  | exact _ _ => cases hactive
  | carry _ _ _ ih => exact Or.inr ((ih hactive).elim id id)

theorem VolumeRun.startTs (h : VolumeRun V trades bars a) (hactive : a.active = true) :
    ∃ x ∈ trades, x.tsNs = a.startTs := by
  induction h with
  | nil => cases hactive
  | @snoc trades bars out a a' t _ hdrains ih =>
    have hlast : t ∈ trades ++ [t] := List.mem_append_right _ (List.mem_singleton.mpr rfl)
    rcases hdrains.startTs hactive with hstart | hstart
    · cases hopen : a.active with
      | false =>
        rw [Acc.add_inactive hopen] at hstart
        exact ⟨t, hlast, hstart.symm⟩
      | true =>
        rw [Acc.add_of_active hopen] at hstart
        obtain ⟨x, hx, hxt⟩ := ih hopen
        exact ⟨x, List.mem_append_left _ hx, hxt.trans hstart.symm⟩
    · exact ⟨t, hlast, hstart.symm⟩

/-- **No trade is early if the timestamps of its symbol never go back.** -/
theorem noneEarly_of_stamped (h : ∀ symbolId, Stamped (tradesOf symbolId trades)) :
    NoneEarly T V trades := by
  rintro pre t g hpre hrun ⟨hin, hcase⟩
  obtain ⟨calls, htracks⟩ := runBars_tracks hrun
  have hstamped : Stamped (tradesOf t.symbolId pre ++ [t]) := by
    rw [← tradesOf_snoc_self]
    exact List.Pairwise.sublist (hpre.sublist.filter _) (h t.symbolId)
  have hle : ∀ x ∈ tradesOf t.symbolId pre, ¬ t.tsNs < x.tsNs := by
    intro x hx hlt
    have hlast := hstamped.le_last List.getLast?_concat (List.mem_append_left [t] hx)
    exact absurd (UInt64.lt_iff_toNat_lt.mp hlt) (Nat.not_lt.mpr hlast)
  rcases hcase with ⟨hactive, hlt⟩ | ⟨hactive, -, hlt⟩
  · obtain ⟨x, hx, hstart⟩ := (htracks.time t.symbolId hin).startTs hactive
    rw [← hstart] at hlt
    exact hle x hx hlt
  · obtain ⟨x, hx, hstart⟩ := (htracks.volume t.symbolId hin).startTs hactive
    rw [← hstart] at hlt
    exact hle x hx hlt

end Stamped

theorem bar_log_well_formed_sample : SoundLog 1000 10 sampleTrades := by
  have hstamped : Stamped sampleTrades := by decide
  exact (bar_log_well_formed 1000 10 (by decide) sampleTrades).mpr
    (noneEarly_of_stamped hstamped.tradesOf)

/-- The second trade is stamped 50, the first 100: the difference is almost `2 ^ 64`, the bar is closed
and its record goes from 100 to 50. -/
theorem early_trade_breaks_log :
    ∃ g bars, runBars 1000 100 ((twoTrades 50).map .trade ++ [.flush]) = some g ∧
      readBars g.output.out = .ok bars ∧ ∃ b ∈ bars, ¬ b.WellFormed := by
  obtain ⟨g, hrun⟩ := runBars_isSome (T := 1000) (V := 100) (by decide) (twoTrades 50).dropLast
  obtain ⟨calls, htracks⟩ := runBars_tracks hrun
  have hopen := htracks.time 0 (by decide)
  have hwithin : Within 1000 (tradesOf 0 (twoTrades 50).dropLast) := by
    intro first t hfirst ht
    obtain rfl := Option.some.inj hfirst
    revert t
    decide
  rw [hopen.no_close (by decide) hwithin] at hopen
  have hearly : g.Early ⟨0, 60, 6, .buy, 2, 50, 2⟩ := by
    refine ⟨by decide, Or.inl ?_⟩
    show (g.timeAcc (symbolSlot 0)).active = true ∧ _ < (g.timeAcc (symbolSlot 0)).startTs
    rw [hopen.acc_of_open]
    decide
  have hsplit : twoTrades 50 = (twoTrades 50).dropLast ++ [⟨0, 60, 6, .buy, 2, 50, 2⟩] := rfl
  rw [hsplit]
  exact not_wellFormed_of_early (by decide) hrun hearly

end MarketDataPipeline.Bars
