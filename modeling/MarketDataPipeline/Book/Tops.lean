/-
# MarketDataPipeline.Book.Tops — when a call moves a displayed top.

`on_modify` compares the old symbol's top with the new symbol's, and `on_add` compares after a replaced
order is gone.  Whether the tick they return agrees with what a reader of `top` sees is decided by where
the old and the new order stand, and these are the exact conditions.

Quantities may wrap here: a level of sum `2^32` shows 0 and stays in the bitmap.  So the invariant is
about the bitmap alone (`SideBook.Tidy`): what has a quantity is marked, and the best price is the best
marked one.  It holds after every list of messages (`runBook_tidy`).
-/
import MarketDataPipeline.Book.Histories

namespace MarketDataPipeline.Book

open MarketDataPipeline.Wire

theorem isBest_congr {isBid : Bool} {L L' : Nat → Nat} {best : Nat} (h : ∀ p, L p ≠ 0 ↔ L' p ≠ 0) :
    IsBest isBid L best ↔ IsBest isBid L' best := by
  have hset : {p | L p ≠ 0} = {p | L' p ≠ 0} := Set.ext h
  unfold IsBest
  rw [hset]

/-! ## Tidy sides -/

namespace SideBook

variable {s : SideBook} {isBid : Bool} {price qty : UInt32}

/-- The marked prices, each with a quantity of 1. -/
def marks (s : SideBook) (p : Nat) : Nat :=
  if p < 64 * kBitmapWords ∧ s.marked p = true then 1 else 0

theorem marks_ne_zero {p : Nat} : s.marks p ≠ 0 ↔ p < 64 * kBitmapWords ∧ s.marked p = true := by
  unfold marks
  split_ifs with h
  · exact iff_of_true Nat.one_ne_zero h
  · exact iff_of_false (fun h0 => h0 rfl) h

/-- **Quantities, bitmap and best price go together**, whether or not a sum has wrapped. -/
structure Tidy (isBid : Bool) (s : SideBook) : Prop where
  support : ∀ p, s.marks p ≠ 0 → 1 ≤ p ∧ p ≤ kPriceLevels
  held : ∀ p, 1 ≤ p → p ≤ kPriceLevels → s.qty (Fin.ofNat _ p) ≠ 0 → s.marks p ≠ 0
  best : IsBest isBid s.marks s.bestPrice.toNat

theorem tidy_empty (isBid : Bool) : Tidy isBid {} := by
  have hnone : ∀ p, ¬ (({} : SideBook).marks p ≠ 0) := by
    intro p
    rw [marks_ne_zero]
    simp [marked, Library.Bitmap.member, Library.Bitmap.bit]
  refine ⟨fun p hp => absurd hp (hnone p), fun p _ _ hq => absurd rfl hq, Or.inr ⟨?_, rfl⟩⟩
  rw [Set.eq_empty_iff_forall_notMem]
  exact hnone

theorem toNat_ne_zero {x : UInt32} (h : x ≠ 0) : x.toNat ≠ 0 := fun h0 => h (UInt32.toNat_inj.mp h0)

/-- The best price of a side that is not empty is a price of the book. -/
theorem Tidy.best_bounds (h : s.Tidy isBid) (hb : s.bestPrice ≠ 0) :
    1 ≤ s.bestPrice.toNat ∧ s.bestPrice.toNat ≤ kPriceLevels :=
  h.support _ (h.best.ne_zero (toNat_ne_zero hb))

theorem qtyAt_congr {s' : SideBook} (h : s'.qty = s.qty) : s'.qtyAt price = s.qtyAt price := by
  unfold qtyAt
  rw [h]

/-! ## Adding -/

/-- What is marked after an addition: the level, and what was marked before. -/
theorem Tidy.marks_addLevel (h : s.Tidy isBid) (h1 : 1 ≤ price.toNat)
    (h2 : price.toNat ≤ kPriceLevels) (p : Nat) :
    (s.addLevel price qty isBid).marks p ≠ 0 ↔ p = price.toNat ∨ s.marks p ≠ 0 := by
  have hheld := h.held _ h1 h2
  rw [marks_ne_zero] at hheld ⊢
  rw [marks_ne_zero]
  constructor
  · rintro ⟨hp, hmark⟩
    rw [marked_addLevel h2 hp] at hmark
    split_ifs at hmark
    · rw [Bool.or_eq_true, decide_eq_true_eq] at hmark
      rcases hmark with hmark | hmark
      · exact Or.inr ⟨hp, hmark⟩
      · exact Or.inl hmark.symm
    · exact Or.inr ⟨hp, hmark⟩
  · rintro (rfl | ⟨hp, hmark⟩)
    · refine ⟨lt_words h2, ?_⟩
      rw [marked_addLevel h2 (lt_words h2)]
      split_ifs with hempty
      · simp
      · exact (hheld hempty).2
    · refine ⟨hp, ?_⟩
      rw [marked_addLevel h2 hp, hmark]
      simp

theorem Tidy.addLevel (h : s.Tidy isBid) (h1 : 1 ≤ price.toNat) (h2 : price.toNat ≤ kPriceLevels) :
    (s.addLevel price qty isBid).Tidy isBid := by
  refine ⟨?_, ?_, ?_⟩
  · intro p hp
    rcases (h.marks_addLevel h1 h2 p).mp hp with rfl | hp
    · exact ⟨h1, h2⟩
    · exact h.support p hp
  · intro p hp1 hp2 hq
    rw [h.marks_addLevel h1 h2]
    rw [addLevel_qty, setQty_qty h2 hp2] at hq
    split_ifs at hq with heq
    · exact Or.inl heq
    · exact Or.inr (h.held p hp1 hp2 hq)
  · have hbest : IsBest isBid (Function.update s.marks price.toNat (s.marks price.toNat + 1)) _ :=
      isBest_add h.best (fun p hp => (h.support p hp).1) Nat.one_ne_zero
    have hcongr : ∀ p, Function.update s.marks price.toNat (s.marks price.toNat + 1) p ≠ 0 ↔
        (s.addLevel price qty isBid).marks p ≠ 0 := by
      intro p
      rw [h.marks_addLevel h1 h2]
      by_cases heq : p = price.toNat
      · rw [heq, Function.update_self]
        exact iff_of_true (Nat.succ_ne_zero _) (Or.inl rfl)
      · rw [Function.update_of_ne heq]
        exact (or_iff_right heq).symm
    rw [isBest_congr hcongr] at hbest
    rw [toNat_addLevel_bestPrice]
    exact hbest

/-! ## Removing -/

theorem marks_lowered (h2 : price.toNat ≤ kPriceLevels) (p : Nat) :
    (s.lowered price qty).marks p ≠ 0 ↔
      s.marks p ≠ 0 ∧ (p = price.toNat → s.remaining price qty ≠ 0) := by
  rw [marks_ne_zero, marks_ne_zero, and_assoc]
  refine and_congr_right fun hp => ?_
  rw [marked_lowered h2 hp]
  split_ifs with hzero
  · rw [Bool.and_eq_true, Bool.not_eq_true', decide_eq_false_iff_not]
    refine and_congr_right fun _ => ?_
    constructor
    · intro hne heq
      exact absurd heq.symm hne
    · intro hne heq
      exact hne heq.symm hzero
  · exact (and_iff_left fun _ => hzero).symm

theorem marks_removeLevel (h2 : price.toNat ≤ kPriceLevels) (p : Nat) :
    (s.removeLevel price qty isBid).marks p ≠ 0 ↔
      s.marks p ≠ 0 ∧ (p = price.toNat → s.remaining price qty ≠ 0) := by
  rw [← marks_lowered h2, removeLevel_eq]
  split_ifs <;> rfl

theorem removeLevel_qty : (s.removeLevel price qty isBid).qty
    = (s.setQty price (s.remaining price qty)).qty := by
  rw [← lowered_qty, removeLevel_eq]
  split_ifs <;> rfl

theorem qtyAt_lowered : (s.lowered price qty).qtyAt price = s.remaining price qty := by
  rw [qtyAt_congr lowered_qty, qtyAt_setQty]

/-- No marked price is better than the best one. -/
theorem Tidy.no_better (h : s.Tidy isBid) {p : Nat} (hp : s.marks p ≠ 0) :
    if isBid then p ≤ s.bestPrice.toNat else s.bestPrice.toNat ≤ p := by
  rcases h.best with hbest | ⟨hnone, -⟩
  · cases isBid
    · exact hbest.2 hp
    · exact hbest.2 hp
  · rw [Set.eq_empty_iff_forall_notMem] at hnone
    exact absurd hp (hnone p)

theorem Tidy.lowered_best (h : s.Tidy isBid) (h2 : price.toNat ≤ kPriceLevels)
    (hkeep : price = s.bestPrice → s.remaining price qty ≠ 0) :
    IsBest isBid (s.lowered price qty).marks s.bestPrice.toNat := by
  by_cases hsome : ∃ p, s.marks p ≠ 0
  · refine isBest_shrink h.best (fun p hp => ((marks_lowered h2 p).mp hp).1) ?_ hsome
    intro hbest
    rw [marks_lowered h2]
    exact ⟨hbest, fun heq => hkeep (UInt32.toNat_inj.mp heq).symm⟩
  · -- nothing was marked, so nothing is
    have hsame : ∀ p, s.marks p ≠ 0 ↔ (s.lowered price qty).marks p ≠ 0 := by
      intro p
      rw [marks_lowered h2]
      exact iff_of_false (fun hp => hsome ⟨p, hp⟩) fun hp => hsome ⟨p, hp.1⟩
    exact (isBest_congr hsame).mp h.best

theorem Tidy.removeLevel (h : s.Tidy isBid) (h2 : price.toNat ≤ kPriceLevels) :
    (s.removeLevel price qty isBid).Tidy isBid := by
  refine ⟨?_, ?_, ?_⟩
  · intro p hp
    exact h.support p ((marks_removeLevel h2 p).mp hp).1
  · intro p hp1 hp2 hq
    rw [removeLevel_qty, setQty_qty h2 hp2] at hq
    rw [marks_removeLevel h2]
    split_ifs at hq with heq
    · -- something is left of the level, so it had a quantity
      refine ⟨h.held p hp1 hp2 ?_, fun _ => hq⟩
      intro hnone
      apply hq
      have hread : s.qtyAt price = 0 := by
        unfold qtyAt
        rw [← heq]
        exact hnone
      unfold remaining
      rw [hread]
      exact if_pos (UInt32.le_iff_toNat_le.mpr (Nat.zero_le _))
    · exact ⟨h.held p hp1 hp2 hq, fun h0 => absurd h0 heq⟩
  · rw [removeLevel_eq, lowered_bestPrice, qtyAt_lowered]
    split_ifs with hcase
    · -- the best level is used up: the scan starts from it, and nothing marked is better
      have hbits : ∀ p, p < 64 * kBitmapWords →
          ((s.lowered price qty).marked p = true ↔ (s.lowered price qty).marks p ≠ 0) := by
        intro p hp
        rw [marks_ne_zero]
        exact (and_iff_right hp).symm
      refine recomputeBest_isBest (fun p hp => h.support p ((marks_lowered h2 p).mp hp).1) hbits ?_ ?_
      · rw [lowered_bestPrice, ← hcase.1]
        exact h2
      · intro p hp
        rw [lowered_bestPrice]
        exact h.no_better ((marks_lowered h2 p).mp hp).1
    · rw [lowered_bestPrice]
      exact h.lowered_best h2 fun heq hzero => hcase ⟨heq, hzero⟩

/-! ## What a side displays -/

/-- The best price and its quantity. -/
def shown (s : SideBook) : UInt32 × UInt32 := (s.bestPrice, BookBuilder.bestQty s)

/-- `p` is strictly better than `q`. -/
def beats (isBid : Bool) (p q : UInt32) : Bool := if isBid then q < p else p < q

/-- The side has a best price, and it is better than `price`. -/
def behind (s : SideBook) (isBid : Bool) (price : UInt32) : Bool :=
  s.bestPrice != 0 && beats isBid s.bestPrice price

/-- The display depends on the best price and on the quantity there. -/
theorem shown_congr {s' : SideBook} (hbest : s'.bestPrice = s.bestPrice)
    (hqty : s.bestPrice ≠ 0 → s'.qtyAt s.bestPrice = s.qtyAt s.bestPrice) : s'.shown = s.shown := by
  unfold shown BookBuilder.bestQty
  rw [hbest]
  split_ifs with hb
  · rw [hqty hb]
  · rfl

/-- Writing the quantity of another price does not touch the best one. -/
theorem Tidy.qtyAt_best (h : s.Tidy isBid) (h2 : price.toNat ≤ kPriceLevels) {s' : SideBook}
    {v : UInt32} (hqty : s'.qty = (s.setQty price v).qty) (hne : price ≠ s.bestPrice)
    (hb : s.bestPrice ≠ 0) : s'.qtyAt s.bestPrice = s.qtyAt s.bestPrice := by
  unfold qtyAt
  rw [hqty, setQty_qty h2 (h.best_bounds hb).2]
  exact if_neg fun heq => hne (UInt32.toNat_inj.mp heq).symm

theorem beats_irrefl (isBid : Bool) (p : UInt32) : beats isBid p p = false := by
  cases isBid <;> simp [beats]

/-- A level behind the best one does not show. -/
theorem Tidy.shown_addLevel_of_behind (h : s.Tidy isBid) (h2 : price.toNat ≤ kPriceLevels)
    (hbehind : s.behind isBid price = true) : (s.addLevel price qty isBid).shown = s.shown := by
  unfold behind at hbehind
  rw [Bool.and_eq_true, bne_iff_ne] at hbehind
  obtain ⟨hb, hbeats⟩ := hbehind
  have hne : price ≠ s.bestPrice := by
    rintro rfl
    rw [beats_irrefl] at hbeats
    cases hbeats
  refine shown_congr ?_ (h.qtyAt_best h2 addLevel_qty hne)
  unfold beats at hbeats
  rw [addLevel_bestPrice, if_neg hb]
  cases isBid
  · simp only [Bool.false_eq_true, if_false, decide_eq_true_eq] at hbeats ⊢
    exact if_neg (UInt32.not_lt.mpr (UInt32.le_of_lt hbeats))
  · simp only [if_true, decide_eq_true_eq] at hbeats ⊢
    exact if_neg (UInt32.not_lt.mpr (UInt32.le_of_lt hbeats))

/-- Any other level becomes the best one. -/
theorem shown_addLevel_of_not_behind (hprice : price ≠ 0) (hbehind : s.behind isBid price = false) :
    (s.addLevel price qty isBid).shown = (price, s.qtyAt price + qty) := by
  have hbest : (s.addLevel price qty isBid).bestPrice = price := by
    rw [addLevel_bestPrice]
    split_ifs with hzero hbid hlt hlt
    · rfl
    · rfl
    · -- not better, and not behind: it is the best price itself
      simp only [behind, beats, hbid, if_true, Bool.and_eq_false_iff, bne_eq_false_iff_eq, hzero,
        false_or, decide_eq_false_iff_not] at hbehind
      exact UInt32.le_antisymm (UInt32.not_lt.mp hbehind) (UInt32.not_lt.mp hlt)
    · rfl
    · simp only [behind, beats, hbid, Bool.false_eq_true, if_false, Bool.and_eq_false_iff,
        bne_eq_false_iff_eq, hzero, false_or, decide_eq_false_iff_not] at hbehind
      exact UInt32.le_antisymm (UInt32.not_lt.mp hlt) (UInt32.not_lt.mp hbehind)
  unfold shown BookBuilder.bestQty
  rw [hbest, if_pos hprice, qtyAt_congr addLevel_qty, qtyAt_setQty]

/-- **An addition shows unless it is behind.** -/
theorem Tidy.shown_addLevel_eq_iff (h : s.Tidy isBid) (hprice : price ≠ 0)
    (h2 : price.toNat ≤ kPriceLevels) (hq : qty ≠ 0) :
    (s.addLevel price qty isBid).shown = s.shown ↔ s.behind isBid price = true := by
  refine ⟨fun hsame => ?_, h.shown_addLevel_of_behind h2⟩
  by_contra hbehind
  rw [shown_addLevel_of_not_behind hprice (Bool.eq_false_iff.mpr hbehind)] at hsame
  unfold shown BookBuilder.bestQty at hsame
  obtain ⟨hp, hqty⟩ := Prod.mk.inj hsame
  rw [← hp, if_pos hprice] at hqty
  exact hq (by simpa using hqty)

theorem remaining_ne (hq : qty ≠ 0) (hleft : s.remaining price qty ≠ 0) :
    s.remaining price qty ≠ s.qtyAt price := by
  unfold remaining at hleft ⊢
  split_ifs at hleft ⊢ with hlt
  · exact absurd rfl hleft
  · rw [UInt32.le_iff_toNat_le] at hlt
    intro hsame
    have hval := congrArg UInt32.toNat hsame
    rw [UInt32.toNat_sub_of_le _ _ (UInt32.le_iff_toNat_le.mpr (by omega))] at hval
    have hpos := toNat_ne_zero hq
    omega

/-- **A removal shows exactly at the best price.** -/
theorem Tidy.shown_removeLevel_eq_iff (h : s.Tidy isBid) (hprice : price ≠ 0)
    (h2 : price.toNat ≤ kPriceLevels) (hq : qty ≠ 0) :
    (s.removeLevel price qty isBid).shown = s.shown ↔ price ≠ s.bestPrice := by
  constructor
  · rintro hsame rfl
    obtain ⟨hp, hqty⟩ := Prod.mk.inj hsame
    -- the best price is the same, so it is still marked: something is left there
    have htidy : (s.removeLevel s.bestPrice qty isBid).Tidy isBid := h.removeLevel h2
    have hmark := htidy.best.ne_zero (toNat_ne_zero (hp.symm ▸ hprice))
    rw [hp, marks_removeLevel h2] at hmark
    unfold BookBuilder.bestQty at hqty
    rw [hp, if_pos hprice, if_pos hprice, qtyAt_congr removeLevel_qty, qtyAt_setQty] at hqty
    exact remaining_ne hq (hmark.2 rfl) hqty
  · intro hne
    refine shown_congr ?_ (h.qtyAt_best h2 removeLevel_qty hne)
    rw [removeLevel_eq, lowered_bestPrice, if_neg fun hcase => hne hcase.1, lowered_bestPrice]

/-! ## Replacing a level entry -/

theorem remaining_ne_zero : s.remaining price qty ≠ 0 ↔ qty < s.qtyAt price := by
  unfold remaining
  split_ifs with hle
  · exact iff_of_false (fun h0 => h0 rfl) (UInt32.not_lt.mpr hle)
  · have hlt := UInt32.not_le.mp hle
    refine iff_of_true ?_ hlt
    intro h0
    have hval := congrArg UInt32.toNat h0
    rw [UInt32.toNat_sub_of_le _ _ (UInt32.le_of_lt hlt)] at hval
    rw [UInt32.lt_iff_toNat_lt] at hlt
    rw [show (0 : UInt32).toNat = 0 from rfl] at hval
    omega

/-- The best price beats whatever a marked price beats. -/
theorem Tidy.beats_best (h : s.Tidy isBid) {p : UInt32} (hp : s.marks p.toNat ≠ 0)
    (hbeats : beats isBid p price = true) : beats isBid s.bestPrice price = true := by
  have hworse := h.no_better hp
  unfold beats at hbeats ⊢
  cases isBid
  · simp only [Bool.false_eq_true, if_false, decide_eq_true_eq, UInt32.lt_iff_toNat_lt] at *
    omega
  · simp only [if_true, decide_eq_true_eq, UInt32.lt_iff_toNat_lt] at *
    omega

/-- Being behind the best price is being behind some marked one. -/
theorem Tidy.behind_iff (h : s.Tidy isBid) : s.behind isBid price = true ↔
    ∃ p : UInt32, s.marks p.toNat ≠ 0 ∧ beats isBid p price = true := by
  unfold behind
  rw [Bool.and_eq_true, bne_iff_ne]
  constructor
  · rintro ⟨hb, hbeats⟩
    exact ⟨s.bestPrice, h.best.ne_zero (toNat_ne_zero hb), hbeats⟩
  · rintro ⟨p, hp, hbeats⟩
    have hb : s.bestPrice ≠ 0 := by
      intro h0
      rcases h.best with hbest | ⟨hnone, -⟩
      · have hmem : s.marks s.bestPrice.toNat ≠ 0 := by
          cases isBid
          · exact hbest.1
          · exact hbest.1
        have hpos := (h.support _ hmem).1
        rw [h0] at hpos
        exact absurd hpos (by decide)
      · rw [Set.eq_empty_iff_forall_notMem] at hnone
        exact hnone _ hp
    exact ⟨hb, h.beats_best hp hbeats⟩

/-- What is still better than `price` after a removal was marked before, and was not used up. -/
theorem Tidy.behind_removeLevel (h : s.Tidy isBid) {price₀ qty₀ : UInt32}
    (h2 : price₀.toNat ≤ kPriceLevels) :
    (s.removeLevel price₀ qty₀ isBid).behind isBid price = true ↔
      ∃ p : UInt32, s.marks p.toNat ≠ 0 ∧ beats isBid p price = true ∧
        (p = price₀ → qty₀ < s.qtyAt price₀) := by
  rw [(h.removeLevel h2).behind_iff]
  refine exists_congr fun p => ?_
  rw [marks_removeLevel h2, remaining_ne_zero, UInt32.toNat_inj]
  constructor
  · rintro ⟨⟨hp, hleft⟩, hbeats⟩
    exact ⟨hp, hbeats, hleft⟩
  · rintro ⟨hp, hbeats, hleft⟩
    exact ⟨⟨hp, hleft⟩, hbeats⟩

/-- Taking from the best level and adding again shows the old picture only if the price is the same and
what is added is what could be taken. -/
theorem Tidy.shown_replace_eq_iff (h : s.Tidy isBid) {qty₀ : UInt32} (hb : s.bestPrice ≠ 0)
    (hq₀ : qty₀ ≠ 0) (hprice : price ≠ 0) (h2 : price.toNat ≤ kPriceLevels) :
    ((s.removeLevel s.bestPrice qty₀ isBid).addLevel price qty isBid).shown = s.shown ↔
      price = s.bestPrice ∧
        qty = if s.qtyAt s.bestPrice ≤ qty₀ then s.qtyAt s.bestPrice else qty₀ := by
  have hb2 := (h.best_bounds hb).2
  have htidy : (s.removeLevel s.bestPrice qty₀ isBid).Tidy isBid := h.removeLevel hb2
  by_cases hbehind : (s.removeLevel s.bestPrice qty₀ isBid).behind isBid price = true
  · -- the new entry does not show, and the removal does
    rw [htidy.shown_addLevel_of_behind h2 hbehind, h.shown_removeLevel_eq_iff hb hb2 hq₀]
    refine iff_of_false (fun hne => hne rfl) ?_
    rintro ⟨rfl, -⟩
    obtain ⟨p, hp, hbeats, -⟩ := (h.behind_removeLevel hb2).mp hbehind
    have hself := h.beats_best hp hbeats
    rw [beats_irrefl] at hself
    cases hself
  · rw [shown_addLevel_of_not_behind hprice (Bool.eq_false_iff.mpr hbehind)]
    unfold shown BookBuilder.bestQty
    rw [if_pos hb, Prod.mk.injEq]
    refine and_congr_right ?_
    rintro rfl
    rw [qtyAt_congr removeLevel_qty, qtyAt_setQty]
    unfold remaining
    split_ifs
    · rw [UInt32.zero_add]
    · constructor
      · intro hsum
        rw [← UInt32.add_right_inj (s.qtyAt s.bestPrice - qty₀), hsum, UInt32.sub_add_cancel]
      · rintro rfl
        exact UInt32.sub_add_cancel ..

end SideBook

/-! ## Tidy books -/

namespace BookBuilder

variable {b : BookBuilder} {S : BookSpec}

def AllTidy (b : BookBuilder) : Prop :=
  ∀ symbolId : UInt32, symbolId.toNat < kMaxSymbols → ∀ side,
    ((b.book symbolId).side side).Tidy (isBuy side)

theorem AllTidy.updateSide (h : b.AllTidy) {symbolId : UInt32} {side : Side}
    {f : SideBook → SideBook} (hsym : symbolId.toNat < kMaxSymbols)
    (hf : (f ((b.book symbolId).side side)).Tidy (isBuy side)) :
    (b.updateSide symbolId side f).AllTidy := by
  intro symbolId' hsym' side'
  rw [side_updateSide hsym hsym']
  split_ifs with hat
  · rw [← hat.2]
    exact hf
  · exact h symbolId' hsym' side'

theorem AllTidy.withdraw (h : b.AllTidy) {o : OrderFields} (ho : ValidOrder o) :
    (b.withdraw (some o)).AllTidy := by
  have hremove : (b.removeLevelAt o.symbolId o.side o.price o.qty).AllTidy :=
    h.updateSide ho.1 ((h o.symbolId ho.1 o.side).removeLevel ho.2.2.1)
  exact hremove

theorem AllTidy.deposit (h : b.AllTidy) {o : OrderFields} (ho : ValidOrder o) (pool : OrderPool) :
    (b.deposit o pool).AllTidy := by
  have hadd : (b.addLevelAt o.symbolId o.side o.price o.qty).AllTidy :=
    h.updateSide ho.1 ((h o.symbolId ho.1 o.side).addLevel ho.2.1 ho.2.2.1)
  exact hadd

/-- A trade does not touch the sides. -/
theorem AllTidy.setLast (h : b.AllTidy) {symbolId : UInt32} (hsym : symbolId.toNat < kMaxSymbols)
    (price qty : UInt32) :
    (b.setBook symbolId { b.book symbolId with lastPrice := price, lastQty := qty }).AllTidy := by
  intro symbolId' hsym' side
  rw [book_setBook hsym hsym']
  split_ifs with hat
  · cases side
    · exact h symbolId hsym .buy
    · exact h symbolId hsym .sell
  · exact h symbolId' hsym' side

/-- Every message keeps the sides tidy. -/
theorem AllTidy.handle (h : b.AllTidy) (hb : Holds S b) (m : BookMsg) : (b.handle m).1.AllTidy := by
  cases m with
  | add m =>
    simp only [BookBuilder.handle]
    rcases onAdd_cases hb m with ⟨-, heq⟩ | ⟨ho, -, pool, -, heq⟩
    · rw [heq]
      exact h
    · rw [heq]
      cases hl : S.orders.lookup m.orderId with
      | none => exact h.deposit ho pool
      | some o₀ => exact (h.withdraw (hb.valid _ _ hl)).deposit ho pool
  | modify m =>
    simp only [BookBuilder.handle]
    rcases onModify_cases hb m with ⟨-, heq⟩ | ⟨ho, o₀, hl, pool, -, heq⟩
    · rw [heq]
      exact h
    · rw [heq]
      exact (h.withdraw (hb.valid _ _ hl)).deposit ho pool
  | delete m =>
    simp only [BookBuilder.handle]
    rcases onDelete_cases hb m with ⟨-, heq⟩ | ⟨o₀, hl, pool, -, heq⟩
    · rw [heq]
      exact h
    · rw [heq]
      have hgone := h.withdraw (hb.valid _ _ hl)
      exact hgone
  | trade m =>
    simp only [BookBuilder.handle]
    rcases onTrade_cases b m with ⟨-, heq⟩ | ⟨ho, heq⟩
    · rw [heq]
      exact h
    · rw [heq]
      exact h.setLast ho.1 m.price m.qty

end BookBuilder

/-- **After every list of messages all sides are tidy.** -/
theorem runBook_tidy (msgs : List BookMsg) : (runBook msgs).AllTidy := by
  induction msgs using List.reverseRecOn with
  | nil =>
    intro symbolId _ side
    cases side <;> exact SideBook.tidy_empty _
  | append_singleton pre m ih =>
    rw [runBook_snoc]
    exact ih.handle (runBook_holds pre) m

/-! ## Tops side by side -/

def Bbo.side (t : Bbo) : Side → UInt32 × UInt32
  | .buy => (t.bidPrice, t.bidQty)
  | .sell => (t.askPrice, t.askQty)

def Bbo.withSide (t : Bbo) : Side → UInt32 × UInt32 → Bbo
  | .buy, x => { t with bidPrice := x.1, bidQty := x.2 }
  | .sell, x => { t with askPrice := x.1, askQty := x.2 }

theorem Bbo.side_withSide (t : Bbo) (side side' : Side) (x : UInt32 × UInt32) :
    (t.withSide side x).side side' = if side = side' then x else t.side side' := by
  cases side <;> cases side' <;> rfl

theorem Bbo.withSide_withSide (t : Bbo) (side : Side) (x y : UInt32 × UInt32) :
    (t.withSide side x).withSide side y = t.withSide side y := by
  cases side <;> rfl

theorem Bbo.withSide_eq_self {t : Bbo} {side : Side} {x : UInt32 × UInt32} :
    t.withSide side x = t ↔ x = t.side side := by
  constructor
  · intro h
    rw [← h, Bbo.side_withSide, if_pos rfl]
  · rintro rfl
    cases side <;> rfl

namespace BookBuilder

variable {b : BookBuilder} {symbolId : UInt32} {side : Side}

theorem bbo_side (h : symbolId.toNat < kMaxSymbols) :
    (b.top symbolId).bbo.side side = ((b.book symbolId).side side).shown := by
  unfold top
  rw [if_neg (Nat.not_le.mpr h)]
  cases side <;> rfl

/-- A change to one side changes that side of the top. -/
theorem bbo_updateSide {f : SideBook → SideBook} (h : symbolId.toNat < kMaxSymbols) :
    ((b.updateSide symbolId side f).top symbolId).bbo
      = (b.top symbolId).bbo.withSide side (f ((b.book symbolId).side side)).shown := by
  unfold updateSide top
  rw [if_neg (Nat.not_le.mpr h), if_neg (Nat.not_le.mpr h), book_setBook h h, if_pos rfl]
  cases side <;> rfl

/-- The top of a symbol after an order has been taken from its level. -/
theorem bbo_withdraw {o : OrderFields} (ho : ValidOrder o) :
    ((b.withdraw (some o)).top o.symbolId).bbo = (b.top o.symbolId).bbo.withSide o.side
      (((b.book o.symbolId).side o.side).removeLevel o.price o.qty (isBuy o.side)).shown := by
  show ((b.removeLevelAt o.symbolId o.side o.price o.qty).top o.symbolId).bbo = _
  unfold removeLevelAt
  exact bbo_updateSide ho.1

theorem bbo_deposit {o : OrderFields} (ho : ValidOrder o) (pool : OrderPool) :
    ((b.deposit o pool).top o.symbolId).bbo = (b.top o.symbolId).bbo.withSide o.side
      (((b.book o.symbolId).side o.side).addLevel o.price o.qty (isBuy o.side)).shown := by
  show ((b.addLevelAt o.symbolId o.side o.price o.qty).top o.symbolId).bbo = _
  unfold addLevelAt
  exact bbo_updateSide ho.1

theorem price_ne_zero {o : OrderFields} (ho : ValidOrder o) : o.price ≠ 0 := by
  intro h0
  have hpos := ho.2.1
  rw [h0] at hpos
  exact absurd hpos (by decide)

theorem qty_ne_zero {o : OrderFields} (ho : ValidOrder o) : o.qty ≠ 0 := by
  intro h0
  have hpos := ho.2.2.2
  rw [h0] at hpos
  exact absurd hpos (by decide)

/-- **Taking an order away moves the top of its symbol exactly if it stands at the best price.** -/
theorem AllTidy.withdraw_moves (h : b.AllTidy) {o : OrderFields} (ho : ValidOrder o) :
    ((b.withdraw (some o)).top o.symbolId).bbo = (b.top o.symbolId).bbo ↔
      o.price ≠ ((b.book o.symbolId).side o.side).bestPrice := by
  rw [bbo_withdraw ho, Bbo.withSide_eq_self, bbo_side ho.1]
  exact (h o.symbolId ho.1 o.side).shown_removeLevel_eq_iff (price_ne_zero ho) ho.2.2.1
    (qty_ne_zero ho)

/-- **Entering an order moves the top of its symbol unless a better price is there.** -/
theorem AllTidy.deposit_moves (h : b.AllTidy) {o : OrderFields} (ho : ValidOrder o)
    (pool : OrderPool) :
    ((b.deposit o pool).top o.symbolId).bbo = (b.top o.symbolId).bbo ↔
      ((b.book o.symbolId).side o.side).behind (isBuy o.side) o.price = true := by
  rw [bbo_deposit ho, Bbo.withSide_eq_self, bbo_side ho.1]
  exact (h o.symbolId ho.1 o.side).shown_addLevel_eq_iff (price_ne_zero ho) ho.2.2.1
    (qty_ne_zero ho)

/-- The new top, if the order is not behind a better price. -/
theorem bbo_deposit_of_not_behind {o : OrderFields} (ho : ValidOrder o) (pool : OrderPool)
    (hbehind : ((b.book o.symbolId).side o.side).behind (isBuy o.side) o.price = false) :
    ((b.deposit o pool).top o.symbolId).bbo = (b.top o.symbolId).bbo.withSide o.side
      (o.price, ((b.book o.symbolId).side o.side).qtyAt o.price + o.qty) := by
  rw [bbo_deposit ho, SideBook.shown_addLevel_of_not_behind (price_ne_zero ho) hbehind]

theorem isSome_tickIfChanged {before after : TopOfBook} {hdr : Header} {cause : MsgType} :
    (b.tickIfChanged before after symbolId hdr cause).isSome = true ↔ after.bbo ≠ before.bbo := by
  unfold tickIfChanged
  split_ifs with hsame
  · rw [sameTop_iff] at hsame
    exact iff_of_false Bool.false_ne_true fun hne => hne hsame
  · rw [sameTop_iff] at hsame
    exact iff_of_true rfl hsame

/-! ## Adding over a live order -/

/-- The new entry is behind a price that stays: the addition does not show, the removal does. -/
def Hides (b : BookBuilder) (m : AddOrder) (r : OrderRecord) : Prop :=
  ∃ price : UInt32, ((b.book m.symbolId).side m.side).marks price.toNat ≠ 0 ∧
    SideBook.beats (isBuy m.side) price m.price = true ∧
    -- the level of the old order stays only if others stand there
    (m.side = r.side → price = r.price →
      r.qty < ((b.book r.symbolId).side r.side).qtyAt r.price)

/-- The new entry puts back what the removal took. -/
def Restores (b : BookBuilder) (m : AddOrder) (r : OrderRecord) : Prop :=
  let level := ((b.book r.symbolId).side r.side).qtyAt r.price
  m.side = r.side ∧ m.price = r.price ∧ m.qty = if level ≤ r.qty then level else r.qty

/-- An add that replaces an order at the best price of the same symbol, and hides or undoes that. -/
def AddMisreports (b : BookBuilder) (m : AddOrder) : Prop :=
  b.rejects (.add m) = false ∧ ∃ r, b.liveRecord m.orderId = some r ∧ r.symbolId = m.symbolId ∧
    r.price = ((b.book r.symbolId).side r.side).bestPrice ∧ (b.Hides m r ∨ b.Restores m r)

/-- The sides of a symbol after an order has been taken from one of them. -/
theorem side_withdraw {o : OrderFields} (ho : ValidOrder o) (side : Side) :
    ((b.withdraw (some o)).book o.symbolId).side side
      = if o.side = side then
          ((b.book o.symbolId).side o.side).removeLevel o.price o.qty (isBuy o.side)
        else (b.book o.symbolId).side side := by
  show ((b.removeLevelAt o.symbolId o.side o.price o.qty).book o.symbolId).side side = _
  unfold removeLevelAt
  rw [side_updateSide ho.1 ho.1]
  simp only [true_and]

/-- The addition does not show in the picture without the old order. -/
theorem AllTidy.hides_iff (h : b.AllTidy) {m : AddOrder} {o : OrderFields} (ho : ValidOrder o)
    (hsym : o.symbolId = m.symbolId) :
    (((b.withdraw (some o)).book m.symbolId).side m.side).behind (isBuy m.side) m.price = true ↔
      b.Hides m (recordOf m.orderId o) := by
  unfold Hides
  rw [← hsym, side_withdraw ho]
  split_ifs with hside
  · rw [← hside, (h o.symbolId ho.1 o.side).behind_removeLevel ho.2.2.1]
    refine exists_congr fun p => and_congr_right fun _ => and_congr_right fun _ => ?_
    exact ⟨fun hstays _ => hstays, fun hstays => hstays rfl⟩
  · rw [(h o.symbolId ho.1 m.side).behind_iff]
    refine exists_congr fun p => and_congr_right fun _ => ?_
    exact (and_iff_left fun heq => absurd heq.symm hside).symm

/-- The old picture is back although it was gone in between. -/
theorem AllTidy.restores_iff (h : b.AllTidy) {m : AddOrder} {o : OrderFields} (ho : ValidOrder o)
    (hm : ValidOrder ⟨m.symbolId, m.side, m.price, m.qty⟩) (hsym : o.symbolId = m.symbolId)
    (hbest : o.price = ((b.book o.symbolId).side o.side).bestPrice) (pool : OrderPool) :
    ((((b.withdraw (some o)).deposit ⟨m.symbolId, m.side, m.price, m.qty⟩ pool).top m.symbolId).bbo
        = (b.top m.symbolId).bbo) ↔ b.Restores m (recordOf m.orderId o) := by
  have hdeposit : (((b.withdraw (some o)).deposit ⟨m.symbolId, m.side, m.price, m.qty⟩ pool).top
      m.symbolId).bbo = _ := bbo_deposit hm pool
  rw [hdeposit, ← hsym, bbo_withdraw ho]
  dsimp only
  rw [side_withdraw ho]
  by_cases hside : o.side = m.side
  · rw [if_pos hside, ← hside, Bbo.withSide_withSide, Bbo.withSide_eq_self, bbo_side ho.1]
    unfold Restores
    have hb : ((b.book o.symbolId).side o.side).bestPrice ≠ 0 := hbest ▸ price_ne_zero ho
    rw [hbest, (h o.symbolId ho.1 o.side).shown_replace_eq_iff hb (qty_ne_zero ho)
      (price_ne_zero hm) hm.2.2.1, ← hbest]
    exact (and_iff_right hside.symm).symm
  · -- the removal stays visible on its own side
    rw [if_neg hside]
    refine iff_of_false ?_ fun hall => hside hall.1.symm
    intro hsame
    have hold := congrArg (Bbo.side · o.side) hsame
    rw [Bbo.side_withSide, if_neg fun heq => hside heq.symm, Bbo.side_withSide, if_pos rfl,
      bbo_side ho.1] at hold
    exact (h o.symbolId ho.1 o.side).shown_removeLevel_eq_iff (price_ne_zero ho) ho.2.2.1
      (qty_ne_zero ho) |>.mp hold hbest

/-- A comparison with a picture in between is right unless that picture or the old one is back. -/
theorem compare_between {t₀ t₁ t₂ : Bbo} (hne : t₁ ≠ t₀) :
    (t₂ ≠ t₁ ↔ t₂ ≠ t₀) ↔ ¬ (t₂ = t₁ ∨ t₂ = t₀) := by
  constructor
  · rintro hiff (rfl | rfl)
    · exact hiff.mpr hne rfl
    · exact hiff.mp hne.symm rfl
  · intro hnone
    exact iff_of_true (fun h1 => hnone (Or.inl h1)) fun h0 => hnone (Or.inr h0)

theorem Holds.addMisreports_live {S : BookSpec} (h : Holds S b) {m : AddOrder} {o : OrderFields}
    (hadmits : S.Admits (.add m)) (hl : S.orders.lookup m.orderId = some o) :
    b.AddMisreports m ↔
      (o.symbolId = m.symbolId ∧ o.price = ((b.book o.symbolId).side o.side).bestPrice) ∧
        (b.Hides m (recordOf m.orderId o) ∨ b.Restores m (recordOf m.orderId o)) := by
  unfold AddMisreports
  rw [and_iff_right ((h.rejects_eq_false (.add m)).mpr hadmits), h.liveRecord, hl, and_assoc]
  constructor
  · rintro ⟨r, hr, hall⟩
    obtain rfl := Option.some.inj hr
    exact hall
  · intro hall
    exact ⟨_, rfl, hall⟩

/-- The top of the new symbol is untouched by the removal, unless it is the old symbol and the old
order stands at the best price. -/
theorem AllTidy.withdraw_unmoved (h : b.AllTidy) {o : OrderFields} (ho : ValidOrder o)
    (hsym : symbolId.toNat < kMaxSymbols)
    (hat : ¬ (o.symbolId = symbolId ∧ o.price = ((b.book o.symbolId).side o.side).bestPrice)) :
    ((b.withdraw (some o)).top symbolId).bbo = (b.top symbolId).bbo := by
  by_cases heq : o.symbolId = symbolId
  · subst heq
    rw [h.withdraw_moves ho]
    exact fun hbest => hat ⟨rfl, hbest⟩
  · exact congrArg TopOfBook.bbo (top_congr (book_withdraw_of_ne ho.1 hsym fun h0 => heq h0.symm))

/-- **When `on_add` reports the net change.** After every list of messages, `on_add` returns a tick
exactly if it changes the top of the message's symbol, except in the misreported cases. -/
theorem add_reports_net_change (msgs : List BookMsg) (m : AddOrder) :
    let b := runBook msgs
    (((b.onAdd m).2.isSome = true ↔
        ((b.onAdd m).1.top m.symbolId).bbo ≠ (b.top m.symbolId).bbo) ↔
      ¬ b.AddMisreports m) := by
  intro b
  have hb : Holds (specBook msgs) b := runBook_holds msgs
  have htidy : b.AllTidy := runBook_tidy msgs
  rcases onAdd_cases hb m with ⟨hno, heq⟩ | ⟨ho, hroom, pool, -, heq⟩
  · rw [heq]
    refine iff_of_true ?_ ?_
    · exact iff_of_false Bool.false_ne_true fun hne => hne rfl
    · intro hmis
      exact hno ((hb.rejects_eq_false (.add m)).mp hmis.1)
  · rw [heq]
    dsimp only
    rw [isSome_tickIfChanged]
    cases hl : (specBook msgs).orders.lookup m.orderId with
    | none =>
      -- nothing is replaced, so the picture compared with is the one at the entry
      refine iff_of_true Iff.rfl ?_
      rintro ⟨-, r, hr, -⟩
      rw [hb.liveRecord, hl] at hr
      cases hr
    | some o =>
      have hvalid := hb.valid _ _ hl
      rw [hb.addMisreports_live ⟨ho, hroom⟩ hl]
      by_cases hat : o.symbolId = m.symbolId ∧
          o.price = ((b.book o.symbolId).side o.side).bestPrice
      · -- the removal is visible: the comparison starts from another picture
        have hgone := (htidy.withdraw_moves hvalid).not.mpr (not_not.mpr hat.2)
        have hshow : _ ↔ ((((b.withdraw (some o)).book m.symbolId).side m.side).behind _ _ = true) :=
          (htidy.withdraw hvalid).deposit_moves ho pool
        rw [hat.1] at hgone
        rw [compare_between hgone, hshow, htidy.hides_iff hvalid hat.1,
          htidy.restores_iff hvalid ho hat.1 hat.2, and_iff_right hat]
      · rw [htidy.withdraw_unmoved hvalid ho.1 hat]
        exact iff_of_true Iff.rfl fun hall => hat hall.1

/-- Two bids, of which the better one is about to move behind the other. -/
def twoBids : List BookMsg :=
  [.add ⟨⟨.addOrder, 44, 1, 1⟩, 1, 3, .buy, 100, 5⟩, .add ⟨⟨.addOrder, 44, 2, 2⟩, 2, 3, .buy, 90, 4⟩]

/-- Order 1 is added again at price 80: the top falls to 90 without a tick. -/
theorem replaced_best_not_reported :
    let b := runBook twoBids
    let m : AddOrder := ⟨⟨.addOrder, 44, 3, 3⟩, 1, 3, .buy, 80, 5⟩
    ¬ ((b.onAdd m).2.isSome = true ↔
      ((b.onAdd m).1.top m.symbolId).bbo ≠ (b.top m.symbolId).bbo) := by
  decide +kernel

/-! ## Modifying across symbols -/

/-- A call publishes every top that it changes, and publishes nothing if it changes none. -/
def PublishesTops (b b' : BookBuilder) (tick : Option NormalizedTick) : Prop :=
  (∀ symbolId : UInt32, (b'.top symbolId).bbo ≠ (b.top symbolId).bbo →
    ∃ t, tick = some t ∧ t.symbolId = symbolId ∧ t.bbo = (b'.top symbolId).bbo) ∧
  ((∀ symbolId : UInt32, (b'.top symbolId).bbo = (b.top symbolId).bbo) → tick = none)

/-- The modify is refused, or stays in its symbol, or it leaves no trace in the old symbol and the
comparison of the two symbols happens to come out right. -/
def ModifyPublished (b : BookBuilder) (m : ModifyOrder) : Prop :=
  b.rejects (.modify m) = true ∨ ∃ r, b.liveRecord m.orderId = some r ∧
    (r.symbolId = m.symbolId ∨
      r.price ≠ ((b.book r.symbolId).side r.side).bestPrice ∧
        if ((b.book m.symbolId).side m.side).behind (isBuy m.side) m.price = true then
          (b.top m.symbolId).bbo = (b.top r.symbolId).bbo
        else
          (b.top m.symbolId).bbo.withSide m.side
              (m.price, ((b.book m.symbolId).side m.side).qtyAt m.price + m.qty)
            ≠ (b.top r.symbolId).bbo)

variable {b' : BookBuilder}

theorem top_outside (h : kMaxSymbols ≤ symbolId.toNat) : b'.top symbolId = b.top symbolId := by
  unfold top
  rw [if_pos h, if_pos h]

theorem publishesTops_refl (b : BookBuilder) : PublishesTops b b none :=
  ⟨fun _ hne => absurd rfl hne, fun _ => rfl⟩

/-- A call that changes one symbol only publishes it if it compares with a picture that differs exactly
when that symbol's own does. -/
theorem publishesTops_iff {before : TopOfBook} {hdr : Header} {cause : MsgType}
    (hother : ∀ symbolId' : UInt32, symbolId' ≠ symbolId →
      (b'.top symbolId').bbo = (b.top symbolId').bbo) :
    PublishesTops b b' (b'.tickIfChanged before (b'.top symbolId) symbolId hdr cause) ↔
      ((b'.top symbolId).bbo ≠ (b.top symbolId).bbo ↔ (b'.top symbolId).bbo ≠ before.bbo) := by
  have htick : (b'.tickIfChanged before (b'.top symbolId) symbolId hdr cause).isSome = true ↔ _ :=
    isSome_tickIfChanged
  rw [← htick]
  constructor
  · rintro ⟨hshown, hquiet⟩
    constructor
    · intro hne
      obtain ⟨t, ht, -⟩ := hshown symbolId hne
      rw [ht]
      rfl
    · intro hsome hsame
      rw [hquiet ?_] at hsome
      · cases hsome
      · intro symbolId'
        by_cases heq : symbolId' = symbolId
        · rw [heq]
          exact hsame
        · exact hother symbolId' heq
  · intro hiff
    constructor
    · intro symbolId' hne
      obtain rfl : symbolId' = symbolId := by
        by_contra heq
        exact hne (hother symbolId' heq)
      obtain ⟨t, ht⟩ := Option.isSome_iff_exists.mp (hiff.mp hne)
      refine ⟨t, ht, ?_⟩
      rw [eq_of_tickIfChanged ht]
      exact ⟨makeTick_symbolId .., makeTick_bbo ..⟩
    · intro hsame
      rw [← Option.not_isSome_iff_eq_none, ← hiff]
      exact fun hne => hne (hsame symbolId)

/-- A top that has moved in another symbol than the tick's is not published. -/
theorem not_publishesTops {before : TopOfBook} {hdr : Header} {cause : MsgType}
    {symbolId' : UInt32} (hne : symbolId' ≠ symbolId)
    (hmoved : (b'.top symbolId').bbo ≠ (b.top symbolId').bbo) :
    ¬ PublishesTops b b' (b'.tickIfChanged before (b'.top symbolId) symbolId hdr cause) := by
  rintro ⟨hshown, -⟩
  obtain ⟨t, ht, hsym, -⟩ := hshown symbolId' hmoved
  rw [eq_of_tickIfChanged ht, makeTick_symbolId] at hsym
  exact hne hsym.symm

/-- The symbols that are neither the old one nor the new one. -/
theorem top_replace_of_ne {o₀ o : OrderFields} (ho₀ : ValidOrder o₀) (ho : ValidOrder o)
    (pool : OrderPool) (hne₀ : symbolId ≠ o₀.symbolId) (hne : symbolId ≠ o.symbolId) :
    ((b.withdraw (some o₀)).deposit o pool).top symbolId = b.top symbolId := by
  rcases Nat.lt_or_ge symbolId.toNat kMaxSymbols with hsym | hout
  · exact top_congr ((book_deposit_of_ne ho.1 hsym hne pool).trans
      (book_withdraw_of_ne ho₀.1 hsym hne₀))
  · exact top_outside hout

theorem Holds.modifyPublished_live {S : BookSpec} (h : Holds S b) {m : ModifyOrder}
    {o₀ : OrderFields} (hadmits : S.Admits (.modify m))
    (hl : S.orders.lookup m.orderId = some o₀) :
    b.ModifyPublished m ↔ o₀.symbolId = m.symbolId ∨
      o₀.price ≠ ((b.book o₀.symbolId).side o₀.side).bestPrice ∧
        if ((b.book m.symbolId).side m.side).behind (isBuy m.side) m.price = true then
          (b.top m.symbolId).bbo = (b.top o₀.symbolId).bbo
        else
          (b.top m.symbolId).bbo.withSide m.side
              (m.price, ((b.book m.symbolId).side m.side).qtyAt m.price + m.qty)
            ≠ (b.top o₀.symbolId).bbo := by
  have hrej := (h.rejects_eq_false (.modify m)).mpr hadmits
  unfold ModifyPublished
  rw [hrej, h.liveRecord, hl, or_iff_right Bool.false_ne_true]
  constructor
  · rintro ⟨r, hr, hall⟩
    obtain rfl := Option.some.inj hr
    exact hall
  · intro hall
    exact ⟨_, rfl, hall⟩

/-- A move to another symbol that leaves no trace in the old one: the top of the new symbol is compared
with that of the old. -/
theorem AllTidy.publishes_move (h : b.AllTidy) {o₀ o : OrderFields} (ho₀ : ValidOrder o₀)
    (ho : ValidOrder o) (pool : OrderPool) {hdr : Header} {cause : MsgType}
    (hsym : o₀.symbolId ≠ o.symbolId)
    (hbest : o₀.price ≠ ((b.book o₀.symbolId).side o₀.side).bestPrice) :
    let b' := (b.withdraw (some o₀)).deposit o pool
    (PublishesTops b b'
        (b'.tickIfChanged (b.top o₀.symbolId) (b'.top o.symbolId) o.symbolId hdr cause) ↔
      if ((b.book o.symbolId).side o.side).behind (isBuy o.side) o.price = true then
        (b.top o.symbolId).bbo = (b.top o₀.symbolId).bbo
      else
        (b.top o.symbolId).bbo.withSide o.side
            (o.price, ((b.book o.symbolId).side o.side).qtyAt o.price + o.qty)
          ≠ (b.top o₀.symbolId).bbo) := by
  intro b'
  have hother : ∀ symbolId' : UInt32, symbolId' ≠ o.symbolId →
      (b'.top symbolId').bbo = (b.top symbolId').bbo := by
    intro symbolId' hne
    by_cases heq : symbolId' = o₀.symbolId
    · rw [heq, top_congr (book_deposit_of_ne ho.1 ho₀.1 hsym pool), h.withdraw_moves ho₀]
      exact hbest
    · exact congrArg TopOfBook.bbo (top_replace_of_ne ho₀ ho pool heq hne)
  have hbook : (b.withdraw (some o₀)).book o.symbolId = b.book o.symbolId :=
    book_withdraw_of_ne ho₀.1 ho.1 hsym.symm
  have hmoves := (h.withdraw ho₀).deposit_moves ho pool
  rw [hbook, top_congr hbook] at hmoves
  rw [publishesTops_iff hother]
  split_ifs with hbehind
  · -- nothing has moved, so the two symbols must look the same
    rw [hmoves.mpr hbehind]
    constructor
    · intro hiff
      by_contra hne
      exact hiff.mpr hne rfl
    · intro hsame
      exact iff_of_false (fun hne => hne rfl) (not_not.mpr hsame)
  · have hfront : (((b.withdraw (some o₀)).book o.symbolId).side o.side).behind (isBuy o.side)
        o.price = false := by
      rw [hbook]
      exact Bool.eq_false_iff.mpr hbehind
    have hnew := bbo_deposit_of_not_behind ho pool hfront
    rw [hbook, top_congr hbook] at hnew
    rw [iff_true_left (hmoves.not.mpr hbehind), hnew]

/-- **When `on_modify` publishes what it changes.** After every list of messages, a modify publishes
every top that it changes, and nothing if it changes none, exactly if it meets `ModifyPublished`. -/
theorem modify_publishes_tops (msgs : List BookMsg) (m : ModifyOrder) :
    let b := runBook msgs
    (PublishesTops b (b.onModify m).1 (b.onModify m).2 ↔ b.ModifyPublished m) := by
  intro b
  have hb : Holds (specBook msgs) b := runBook_holds msgs
  have htidy : b.AllTidy := runBook_tidy msgs
  rcases onModify_cases hb m with ⟨hno, heq⟩ | ⟨ho, o₀, hl, pool, -, heq⟩
  · rw [heq]
    refine iff_of_true (publishesTops_refl b) (Or.inl ?_)
    rw [← Bool.not_eq_false, hb.rejects_eq_false (.modify m)]
    exact hno
  · rw [heq, hb.modifyPublished_live ⟨ho, Finmap.mem_of_lookup_eq_some hl⟩ hl]
    dsimp only
    have ho₀ := hb.valid _ _ hl
    by_cases hsym : o₀.symbolId = m.symbolId
    · -- both pictures are of one symbol
      rw [publishesTops_iff fun symbolId' hne =>
        congrArg TopOfBook.bbo (top_replace_of_ne ho₀ ho pool (hsym ▸ hne) hne), hsym]
      exact iff_of_true Iff.rfl (Or.inl rfl)
    · rw [or_iff_right hsym]
      by_cases hbest : o₀.price = ((b.book o₀.symbolId).side o₀.side).bestPrice
      · -- the old symbol has lost its best order, and the tick cannot say so
        refine iff_of_false (not_publishesTops hsym ?_) fun hall => hall.1 hbest
        rw [top_congr (book_deposit_of_ne ho.1 ho₀.1 hsym pool), Ne, htidy.withdraw_moves ho₀]
        exact not_not.mpr hbest
      · rw [and_iff_right hbest]
        exact htidy.publishes_move ho₀ ho pool hsym hbest

/-- The only bid of symbol 3 moves to symbol 4 as it is: both tops change, and nothing is published. -/
theorem moved_order_not_published :
    let b := runBook [.add ⟨⟨.addOrder, 44, 1, 1⟩, 1, 3, .buy, 100, 5⟩]
    let m : ModifyOrder := ⟨⟨.modifyOrder, 44, 2, 2⟩, 1, 4, .buy, 100, 5⟩
    ¬ PublishesTops b (b.onModify m).1 (b.onModify m).2 := by
  rintro b m ⟨hshown, -⟩
  have hmoved : ((b.onModify m).1.top 3).bbo ≠ (b.top 3).bbo := by decide +kernel
  have hquiet : (b.onModify m).2 = none := by decide +kernel
  obtain ⟨t, ht, -⟩ := hshown 3 hmoved
  rw [hquiet] at ht
  cases ht

end BookBuilder

end MarketDataPipeline.Book
