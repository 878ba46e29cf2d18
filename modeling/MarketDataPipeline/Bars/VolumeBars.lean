/-
# MarketDataPipeline.Bars.VolumeBars — which shares a volume bar covers.

A trade of `qty` shares is `qty` trades of one share (`shares`), and the bars of `on_volume` cut the
stream of shares into pieces of `volume_bar_qty` (`VolumeRun.cut`).  The accumulator never sees the single
shares: it takes a trade at once and gives back what is too much in the loop.  `accOf_shares` says that
this is the same, since shares of one trade differ in nothing; `Drains.cut` follows the loop.

The sum of the quantities is exact as long as the bar size leaves room for one more trade in 64 bits.
-/
import MarketDataPipeline.Bars.TimeBars
import MarketDataPipeline.Library.Chunks

namespace MarketDataPipeline.Bars

open MarketDataPipeline.Library.Chunks
open MarketDataPipeline.Book
open MarketDataPipeline.Feed

/-! ## Shares -/

/-- One share of a trade. -/
def share (t : TradeEvent) : TradeEvent := { t with qty := 1 }

/-- The shares of some trades, in order. -/
def shares (trades : List TradeEvent) : List TradeEvent :=
  trades.flatMap fun t => List.replicate t.qty.toNat (share t)

theorem shares_snoc (trades : List TradeEvent) (t : TradeEvent) :
    shares (trades ++ [t]) = shares trades ++ List.replicate t.qty.toNat (share t) := by
  unfold shares
  rw [List.flatMap_append, List.flatMap_singleton]

/-- Trades of one share each. -/
def Single (block : List TradeEvent) : Prop := ∀ x ∈ block, x.qty = 1

theorem single_replicate (n : Nat) (t : TradeEvent) : Single (List.replicate n (share t)) := by
  intro x hx
  rw [List.eq_of_mem_replicate hx]
  rfl

theorem single_shares (trades : List TradeEvent) : Single (shares trades) := by
  intro x hx
  obtain ⟨t, -, hx⟩ := List.mem_flatMap.mp hx
  exact single_replicate _ t x hx

/-- The accumulator with another volume. -/
def Acc.withVolume (a : Acc) (v : UInt64) : Acc := { a with volume := v }

section Share

variable {V : UInt64} {pre : List TradeEvent} {t : TradeEvent} {a a' : Acc} {out : List Acc}

theorem accOf_add_volume (pre : List TradeEvent) (t : TradeEvent) :
    ((accOf pre).add t).volume = (accOf pre).volume + t.qty.toUInt64 := by
  by_cases hpre : pre = []
  · subst hpre
    show t.qty.toUInt64 = 0 + t.qty.toUInt64
    rw [UInt64.zero_add]
  · rw [Acc.add_of_active (accOf_active.mpr hpre)]
    rfl

/-- The volume of shares is their number. -/
theorem accOf_volume (h : Single pre) : (accOf pre).volume = UInt64.ofNat pre.length := by
  induction pre using List.reverseRecOn with
  | nil => rfl
  | append_singleton pre t ih =>
    obtain ⟨hpre, ht⟩ := List.forall_mem_append.mp h
    rw [accOf_snoc, accOf_add_volume, ih hpre, ht t (List.mem_singleton.mpr rfl), List.length_append,
      List.length_singleton, UInt64.ofNat_add]
    rfl

theorem toNat_accOf_volume (h : Single pre) (hlt : pre.length < 2 ^ 64) :
    (accOf pre).volume.toNat = pre.length := by
  rw [accOf_volume h, UInt64.toNat_ofNat_of_lt' hlt]

/-- A share counts for its trade in everything but the volume. -/
theorem Acc.add_share (a : Acc) (t : TradeEvent) :
    a.add (share t) = (a.add t).withVolume (a.add (share t)).volume := by
  cases hactive : a.active with
  | false => rw [add_inactive hactive, add_inactive hactive]; rfl
  | true => rw [add_of_active hactive, add_of_active hactive]; rfl

/-- A further share of the last trade changes the volume only. -/
theorem Acc.add_add_share (a : Acc) (t : TradeEvent) (v : UInt64) :
    ((a.add t).withVolume v).add (share t) = (a.add t).withVolume (v + 1) := by
  rw [add_of_active (a := (a.add t).withVolume v) (add_active a)]
  cases hactive : a.active with
  | false =>
    rw [add_inactive hactive]
    simp [extend, start, share, withVolume]
  | true =>
    rw [add_of_active hactive]
    have hhigh : ¬ (if a.high < t.price then t.price else a.high) < t.price := by
      split_ifs with hlt
      · exact UInt32.lt_irrefl _
      · exact hlt
    have hlow : ¬ t.price < (if t.price < a.low then t.price else a.low) := by
      split_ifs with hlt
      · exact UInt32.lt_irrefl _
      · exact hlt
    unfold extend withVolume share
    dsimp only
    rw [if_neg hhigh, if_neg hlow]
    rfl

/-- **Adding the shares of a trade one by one** is adding it at once. -/
theorem accOf_shares (h : Single pre) (t : TradeEvent) (n : Nat) :
    accOf (pre ++ List.replicate (n + 1) (share t))
      = ((accOf pre).add t).withVolume (UInt64.ofNat (pre.length + (n + 1))) := by
  induction n with
  | zero =>
    have hvol := accOf_volume (List.forall_mem_append.mpr ⟨h, single_replicate 1 t⟩)
    rw [List.length_append, List.length_replicate] at hvol
    rw [Nat.zero_add, ← hvol, List.replicate_one, accOf_snoc]
    exact Acc.add_share _ t
  | succ n ih =>
    rw [List.replicate_succ', ← List.append_assoc, accOf_snoc, ih, Acc.add_add_share,
      ← Nat.add_assoc pre.length (n + 1), UInt64.ofNat_add (pre.length + (n + 1)) 1]
    rfl

/-- The accumulator after a whole trade. -/
theorem accOf_add (h : Single pre) (hqty : t.qty ≠ 0) :
    (accOf pre).add t = accOf (pre ++ List.replicate t.qty.toNat (share t)) := by
  obtain ⟨n, hn⟩ := Nat.exists_eq_succ_of_ne_zero (fun h0 => hqty (UInt32.toNat_inj.mp h0))
  have hvol : ((accOf pre).add t).volume = UInt64.ofNat (pre.length + (n + 1)) := by
    rw [accOf_add_volume, accOf_volume h, UInt64.ofNat_add, ← Nat.succ_eq_add_one, ← hn]
    congr 1
    exact (UInt64.ofNat_uInt32ToNat t.qty).symm
  rw [hn, accOf_shares h, ← hvol]
  rfl

/-- What is left of a trade is some of its shares. -/
theorem carry_eq (hlast : a.endTs = t.tsNs) (hactive : a.active = true) (n : Nat) :
    a.carry t (UInt64.ofNat (n + 1)) = accOf (List.replicate (n + 1) (share t)) := by
  have hnil : Single [] := fun _ hx => absurd hx List.not_mem_nil
  rw [← List.nil_append (List.replicate (n + 1) (share t)), accOf_shares hnil,
    List.length_nil, Nat.zero_add]
  unfold Acc.carry
  rw [hlast, hactive]
  rfl

theorem leftover_eq_zero {v : UInt64} (h : V ≤ v) : v - V = 0 ↔ v = V := by
  have hle := UInt64.le_iff_toNat_le.mp h
  rw [← UInt64.toNat_inj, ← UInt64.toNat_inj, UInt64.toNat_sub_of_le _ _ h, UInt64.toNat_zero]
  omega

/-- The shares in hand while the loop runs. -/
theorem hand_facts (h : Single pre) (t : TradeEvent) {n : Nat}
    (hbound : pre.length + (n + 1) < 2 ^ 64) :
    (pre ++ List.replicate (n + 1) (share t)).length = pre.length + (n + 1) ∧
      (accOf (pre ++ List.replicate (n + 1) (share t))).volume.toNat = pre.length + (n + 1) ∧
      (accOf (pre ++ List.replicate (n + 1) (share t))).active = true := by
  have hlen : (pre ++ List.replicate (n + 1) (share t)).length = pre.length + (n + 1) := by
    rw [List.length_append, List.length_replicate]
  have hsingle : Single (pre ++ List.replicate (n + 1) (share t)) :=
    List.forall_mem_append.mpr ⟨h, single_replicate _ t⟩
  refine ⟨hlen, ?_, accOf_active.mpr (by simp)⟩
  rw [toNat_accOf_volume hsingle (by rw [hlen]; exact hbound), hlen]

/-- One pass with a remainder: the first `m + 1` shares of the trade fill the bar, `l + 1` are left. -/
theorem fill_bar (h : Single pre) (t : TradeEvent) {n m l : Nat} (hm : V.toNat = pre.length + (m + 1))
    (hl : n + 1 = (m + 1) + (l + 1)) (hbound : pre.length + (n + 1) < 2 ^ 64)
    (ha : a = accOf (pre ++ List.replicate (n + 1) (share t))) :
    a.withVolume V = accOf (pre ++ List.replicate (m + 1) (share t)) ∧
      a.carry t (a.volume - V) = accOf (List.replicate (l + 1) (share t)) := by
  obtain ⟨-, hvol, hactive⟩ := hand_facts h t hbound
  rw [← ha] at hvol hactive
  have hleftover : a.volume - V = UInt64.ofNat (l + 1) := by
    apply UInt64.toNat_inj.mp
    rw [UInt64.toNat_sub_of_le _ _ (UInt64.le_iff_toNat_le.mpr (by omega)),
      UInt64.toNat_ofNat_of_lt' (Nat.lt_trans (by omega) hbound)]
    omega
  have hlast : a.endTs = t.tsNs := by
    rw [ha, accOf_shares h]
    exact Acc.add_endTs _ t
  constructor
  · rw [ha, accOf_shares h, accOf_shares h, ← hm, UInt64.ofNat_toNat]
    rfl
  · rw [hleftover, carry_eq hlast hactive]

/-- **The loop of `on_volume` cuts the shares in hand into bars.** -/
theorem Drains.cut (h : Drains V t a out a') (hV : V ≠ 0) :
    ∀ (pre : List TradeEvent) (n : Nat), Single pre → pre.length < V.toNat →
      pre.length + (n + 1) < 2 ^ 64 → a = accOf (pre ++ List.replicate (n + 1) (share t)) →
      ∃ full rest, Cut V.toNat (pre ++ List.replicate (n + 1) (share t)) full rest ∧
        out = full.map accOf ∧ a' = accOf rest := by
  have hpos := toNat_pos hV
  induction h with
  | @stop a hstop =>
    rintro pre n hpre hroom hbound rfl
    obtain ⟨hlen, hvol, hactive⟩ := hand_facts hpre t hbound
    refine ⟨[], _, .of_lt (Nat.not_le.mp fun hle => ?_), rfl, rfl⟩
    exact hstop ⟨hactive, UInt64.le_iff_toNat_le.mpr (by omega)⟩
  | @exact a hgo hexact =>
    rintro pre n hpre hroom hbound rfl
    obtain ⟨hlen, hvol, -⟩ := hand_facts hpre t hbound
    have hfull := (leftover_eq_zero hgo.2).mp hexact
    refine ⟨[_], [], .of_eq (by rw [hlen, ← hvol, hfull]) hpos, ?_, rfl⟩
    rw [List.map_singleton, ← hfull]
  | @carry a a' out hgo hleft _ ih =>
    intro pre n hpre hroom hbound ha
    obtain ⟨-, hvol, -⟩ := hand_facts hpre t hbound
    rw [← ha] at hvol
    have hle := UInt64.le_iff_toNat_le.mp hgo.2
    have hne : a.volume.toNat ≠ V.toNat :=
      fun heq => hleft ((leftover_eq_zero hgo.2).mpr (UInt64.toNat_inj.mp heq))
    obtain ⟨m, hm⟩ : ∃ m, V.toNat = pre.length + (m + 1) := ⟨V.toNat - pre.length - 1, by omega⟩
    obtain ⟨l, hl⟩ : ∃ l, n + 1 = (m + 1) + (l + 1) := ⟨n - m - 1, by omega⟩
    obtain ⟨hemitted, hcarry⟩ := fill_bar hpre t hm hl hbound ha
    -- the loop goes on with the remainder alone
    obtain ⟨full, rest, hcut, rfl, rfl⟩ := ih [] l (fun _ hx => absurd hx List.not_mem_nil) hpos
      (by rw [List.length_nil]; omega) hcarry
    refine ⟨(pre ++ List.replicate (m + 1) (share t)) :: full, rest, ?_, ?_, rfl⟩
    · rw [hl, List.replicate_add, ← List.append_assoc]
      exact hcut.cons (by rw [List.length_append, List.length_replicate, hm])
    · rw [List.map_cons, ← hemitted]
      rfl

/-- **`on_volume` cuts the shares into bars**, for any trades of at least one share. -/
theorem VolumeRun.cut {trades : List TradeEvent} {bars : List Acc} (h : VolumeRun V trades bars a)
    (hV : V ≠ 0) (hroom : V.toNat ≤ 2 ^ 64 - 2 ^ 32) (hqty : ∀ t ∈ trades, t.qty ≠ 0) :
    ∃ full rest, Cut V.toNat (shares trades) full rest ∧ bars = full.map accOf ∧ a = accOf rest := by
  have hpos := toNat_pos hV
  induction h with
  | nil => exact ⟨[], [], .of_lt hpos, rfl, rfl⟩
  | @snoc trades bars out a a' t _ hdrains ih =>
    obtain ⟨hpre, ht⟩ := List.forall_mem_append.mp hqty
    obtain ⟨full, rest, hcut, rfl, rfl⟩ := ih hpre
    have hsingle : Single rest := fun x hx => single_shares trades x (hcut.mem_of_mem_rest hx)
    have hne : t.qty ≠ 0 := ht t (List.mem_singleton.mpr rfl)
    obtain ⟨n, hn⟩ := Nat.exists_eq_succ_of_ne_zero (fun h0 => hne (UInt32.toNat_inj.mp h0))
    have hbound : rest.length + (n + 1) < 2 ^ 64 := by
      have hlt := hcut.length_rest
      have hword := t.qty.toNat_lt
      omega
    obtain ⟨full', rest', hcut', rfl, rfl⟩ := hdrains.cut hV rest n hsingle hcut.length_rest hbound
      (by rw [accOf_add hsingle hne, hn])
    refine ⟨full ++ full', rest', ?_, List.map_append.symm, rfl⟩
    rw [shares_snoc, hn]
    exact hcut.append hcut'

/-- The bars that are in the log after a flush. -/
theorem map_accOf_pieces {full : List (List TradeEvent)} {rest : List TradeEvent} (h : Single rest)
    (hlt : rest.length < 2 ^ 64) :
    (pieces full rest).map accOf = full.map accOf ++
      if (accOf rest).active = true ∧ 0 < (accOf rest).volume then [accOf rest] else [] := by
  unfold pieces
  rw [List.map_append]
  by_cases hrest : rest = []
  · rw [if_pos hrest, if_neg (fun hopen => accOf_active.mp hopen.1 hrest), List.map_nil]
  · have hpos := List.length_pos_iff.mpr hrest
    have hvol : 0 < (accOf rest).volume := by
      rw [UInt64.lt_iff_toNat_lt, toNat_accOf_volume h hlt]
      exact hpos
    rw [if_neg hrest, if_pos ⟨accOf_active.mpr hrest, hvol⟩, List.map_singleton]

end Share

/-! ## Volume bars cut the shares -/

/-- What the volume bars of one symbol are to show, given its shares. -/
structure CutsShares (V : Nat) (shares : List TradeEvent) (bars : List Bar) : Prop where
  length : bars.length = (shares.length + V - 1) / V
  covers : ∀ k bar, bars[k]? = some bar → Aggregates ((shares.drop (k * V)).take V) bar ∧
    bar.volume = min V (shares.length - k * V)

theorem cutsShares_of_cut {V : Nat} {xs : List TradeEvent} {full : List (List TradeEvent)}
    {rest : List TradeEvent} (h : Cut V xs full rest) (hV : V < 2 ^ 64) (hsingle : Single xs)
    (symbolId : UInt32) (type : UInt8) :
    CutsShares V xs (((pieces full rest).map accOf).map fun a => BarCall.bar ⟨symbolId, a, type⟩) where
  length := by
    rw [List.length_map, List.length_map, h.length_pieces]
  covers := by
    intro k bar hbar
    rw [List.map_map, List.getElem?_map] at hbar
    obtain ⟨piece, hpiece, rfl⟩ := Option.map_eq_some_iff.mp hbar
    have hne : piece ≠ [] := h.ne_nil_of_mem_pieces (List.mem_of_getElem? hpiece)
    obtain rfl := h.getElem?_pieces hpiece
    refine ⟨accOf_aggregates hne, ?_⟩
    have hlen : ((xs.drop (k * V)).take V).length = min V (xs.length - k * V) := by
      rw [List.length_take, List.length_drop]
    have hpiece : Single ((xs.drop (k * V)).take V) :=
      fun x hx => hsingle x (List.mem_of_mem_drop (List.mem_of_mem_take hx))
    show (accOf ((xs.drop (k * V)).take V)).volume.toNat = _
    rw [toNat_accOf_volume hpiece (by omega), hlen]

/-- **Volume bars cut the stream of shares into exact pieces**: the `k`-th volume bar of a symbol is the
bar of the shares from `k * V` on, `V` of them or those that are left, and there are as many bars as
that takes. -/
theorem volume_bars_cut_shares (T V : UInt64) (hV : V ≠ 0) (hroom : V.toNat ≤ 2 ^ 64 - 2 ^ 32)
    (trades : List TradeEvent) (hqty : ∀ t ∈ trades, t.qty ≠ 0) :
    ∃ g bars, runBars T V (trades.map .trade ++ [.flush]) = some g ∧
      readBars g.output.out = .ok bars ∧
      ∀ symbolId : UInt32, symbolId.toNat < kMaxSymbols →
        CutsShares V.toNat (shares (tradesOf symbolId trades)) (barsOf bars symbolId 1) := by
  obtain ⟨g, hrun⟩ := runBars_isSome (T := T) hV trades
  obtain ⟨calls, htracks⟩ := runBars_tracks hrun
  obtain ⟨hflush, -, hread⟩ := htracks.log hrun
  refine ⟨g.flushAll, _, hflush, hread, fun symbolId hsym => ?_⟩
  have hone : ∀ t ∈ tradesOf symbolId trades, t.qty ≠ 0 :=
    fun t ht => hqty t (List.mem_of_mem_filter ht)
  obtain ⟨full, rest, hcut, hbars, hacc⟩ := (htracks.volume symbolId hsym).cut hV hroom hone
  have hsingle := single_shares (tradesOf symbolId trades)
  have hrest : rest.length < 2 ^ 64 := Nat.lt_trans hcut.length_rest V.toNat_lt
  rw [barsOf_map, barsFor_append, openBars_volume g hsym, hbars, hacc,
    ← map_accOf_pieces (fun x hx => hsingle x (hcut.mem_of_mem_rest hx)) hrest]
  exact cutsShares_of_cut hcut V.toNat_lt hsingle symbolId 1

/-- Symbol 0 trades 15 shares in bars of 10: the second trade fills a bar and opens the next. -/
theorem volume_bars_cut_shares_sample :
    ∃ g bars, runBars 1000 10 (sampleTrades.map .trade ++ [.flush]) = some g ∧
      readBars g.output.out = .ok bars ∧ (barsOf bars 0 1).length = 2 ∧
      ∀ bar, (barsOf bars 0 1)[1]? = some bar → bar.volume = 5 ∧ bar.startTsNs = 2000 := by
  obtain ⟨g, bars, hrun, hread, hcuts⟩ :=
    volume_bars_cut_shares 1000 10 (by decide) (by decide) sampleTrades (by decide)
  have hcut := hcuts 0 (by decide)
  refine ⟨g, bars, hrun, hread, hcut.length, fun bar hbar => ?_⟩
  obtain ⟨haggregates, hvolume⟩ := hcut.covers 1 bar hbar
  obtain ⟨t, hhead, -, hstart⟩ := haggregates.first
  obtain rfl : (⟨0, 60, 1, .buy, 3, 2000, 3⟩ : TradeEvent) = t := Option.some.inj hhead
  exact ⟨hvolume, hstart⟩

end MarketDataPipeline.Bars
