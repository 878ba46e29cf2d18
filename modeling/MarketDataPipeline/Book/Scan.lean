/-
# MarketDataPipeline.Book.Scan — the bitmap scan against the plain one.

The header gives the reason for the bitmap: it turns "find next populated level" into a bitscan instead
of a walk over up to 4096 quantities.  Here is that walk (`walkBid`, `walkAsk`), and the statement that
nothing else has changed: on every side whose bits tell which quantities are not zero, `recompute_best`
leaves exactly what the walk would (`recomputeBest_walk`).
-/
import MarketDataPipeline.Book.Histories

namespace MarketDataPipeline.Book.SideBook

/-! ## The plain walk -/

/-- Down from `p`: the first price with a quantity, 0 at the bottom. -/
def walkBid (s : SideBook) : Nat → UInt32
  | 0 => 0
  | p + 1 => if s.heldAt (p + 1) ≠ 0 then UInt32.ofNat (p + 1) else s.walkBid p

/-- Up over the `n` prices from `p` on. -/
def walkAsk (s : SideBook) : Nat → Nat → UInt32
  | 0, _ => 0
  | n + 1, p => if s.heldAt p ≠ 0 then UInt32.ofNat p else s.walkAsk n (p + 1)

/-- The walk from the best price: down to 1 for a bid, up to `kPriceLevels` for an ask. -/
def walkBest (s : SideBook) (isBid : Bool) : UInt32 :=
  let price := s.bestPrice.toNat
  if isBid then s.walkBid price else s.walkAsk (kPriceLevels + 1 - price) price

/-- The prices with a quantity, from 1 up to `b`. -/
def heldUpTo (s : SideBook) (b : Nat) : Set Nat :=
  {p | 1 ≤ p ∧ p ≤ b ∧ s.heldAt p ≠ 0}

/-- The prices with a quantity, from `b` up to the last level. -/
def heldFrom (s : SideBook) (b : Nat) : Set Nat :=
  {p | b ≤ p ∧ p ≤ kPriceLevels ∧ s.heldAt p ≠ 0}

/-- Bit `p` is set iff `qty[p]` is not zero, for the prices of the book; no other bit is set. -/
def BitsAgree (s : SideBook) : Prop :=
  ∀ p, p < 64 * kBitmapWords →
    (s.marked p = true ↔ 1 ≤ p ∧ p ≤ kPriceLevels ∧ s.heldAt p ≠ 0)

variable {s : SideBook}

theorem toNat_level {p : Nat} (h : p ≤ kPriceLevels) : (UInt32.ofNat p).toNat = p :=
  toNat_price (lt_words h)

/-- A price without a quantity can be left out of the search. -/
theorem heldUpTo_succ_of_empty {p : Nat} (hzero : s.heldAt (p + 1) = 0) :
    s.heldUpTo (p + 1) = s.heldUpTo p := by
  ext q
  constructor
  · rintro ⟨hpos, hle, hq⟩
    refine ⟨hpos, ?_, hq⟩
    have hne : q ≠ p + 1 := by
      rintro rfl
      exact hq hzero
    omega
  · rintro ⟨hpos, hle, hq⟩
    exact ⟨hpos, by omega, hq⟩

theorem heldFrom_succ_of_empty {p : Nat} (hzero : s.heldAt p = 0) :
    s.heldFrom p = s.heldFrom (p + 1) := by
  ext q
  constructor
  · rintro ⟨hge, hle, hq⟩
    refine ⟨?_, hle, hq⟩
    have hne : q ≠ p := by
      rintro rfl
      exact hq hzero
    omega
  · rintro ⟨hge, hle, hq⟩
    exact ⟨by omega, hle, hq⟩

/-- The walk down ends at the greatest price with a quantity. -/
theorem walkBid_spec (s : SideBook) (p : Nat) (hp : p ≤ kPriceLevels) :
    IsGreatest (s.heldUpTo p) (s.walkBid p).toNat ∨ (s.heldUpTo p = ∅ ∧ s.walkBid p = 0) := by
  induction p with
  | zero =>
    refine Or.inr ⟨?_, rfl⟩
    rw [Set.eq_empty_iff_forall_notMem]
    rintro q ⟨hpos, hle, -⟩
    omega
  | succ p ih =>
    unfold walkBid
    by_cases hne : s.heldAt (p + 1) ≠ 0
    · rw [if_pos hne, toNat_level hp]
      refine Or.inl ⟨⟨by omega, Nat.le_refl _, hne⟩, ?_⟩
      rintro q ⟨-, hle, -⟩
      exact hle
    · rw [if_neg hne, heldUpTo_succ_of_empty (not_ne_iff.mp hne)]
      exact ih (Nat.le_of_succ_le hp)

/-- The walk up ends at the least price with a quantity. -/
theorem walkAsk_spec (s : SideBook) (n p : Nat) (hn : p + n = kPriceLevels + 1) :
    IsLeast (s.heldFrom p) (s.walkAsk n p).toNat ∨ (s.heldFrom p = ∅ ∧ s.walkAsk n p = 0) := by
  induction n generalizing p with
  | zero =>
    refine Or.inr ⟨?_, rfl⟩
    rw [Set.eq_empty_iff_forall_notMem]
    rintro q ⟨hge, hle, -⟩
    omega
  | succ n ih =>
    unfold walkAsk
    by_cases hne : s.heldAt p ≠ 0
    · rw [if_pos hne, toNat_level (by omega)]
      refine Or.inl ⟨⟨Nat.le_refl _, by omega, hne⟩, ?_⟩
      rintro q ⟨hge, -⟩
      exact hge
    · rw [if_neg hne, heldFrom_succ_of_empty (not_ne_iff.mp hne)]
      exact ih (p + 1) (by omega)

/-! ## The scan -/

/-- What the downward scan searches is what the walk searches. -/
theorem BitsAgree.bid_set (h : s.BitsAgree) (hbest : s.bestPrice.toNat ≤ kPriceLevels) :
    {q | s.marked q = true ∧ q ≤ s.bestPrice.toNat ∧ q / 64 ≤ s.bestPrice.toNat / 64}
      = s.heldUpTo s.bestPrice.toNat := by
  ext q
  constructor
  · rintro ⟨hq, hle, -⟩
    obtain ⟨hpos, -, hqty⟩ := (h q (lt_words (hle.trans hbest))).mp hq
    exact ⟨hpos, hle, hqty⟩
  · rintro ⟨hpos, hle, hqty⟩
    have hlevel := hle.trans hbest
    exact ⟨(h q (lt_words hlevel)).mpr ⟨hpos, hlevel, hqty⟩, hle, by omega⟩

theorem BitsAgree.ask_set (h : s.BitsAgree) (hbest : 1 ≤ s.bestPrice.toNat) :
    {q | q < 64 * kBitmapWords ∧ s.marked q = true ∧ s.bestPrice.toNat ≤ q ∧
        s.bestPrice.toNat / 64 ≤ q / 64}
      = s.heldFrom s.bestPrice.toNat := by
  ext q
  constructor
  · rintro ⟨hlt, hq, hge, -⟩
    obtain ⟨-, hle, hqty⟩ := (h q hlt).mp hq
    exact ⟨hge, hle, hqty⟩
  · rintro ⟨hge, hle, hqty⟩
    have hlt := lt_words hle
    exact ⟨hlt, (h q hlt).mpr ⟨hbest.trans hge, hle, hqty⟩, hge, by omega⟩

theorem BitsAgree.recomputeBest_bid (h : s.BitsAgree) (hbest : s.bestPrice.toNat ≤ kPriceLevels) :
    IsGreatest (s.heldUpTo s.bestPrice.toNat) (s.recomputeBest true).bestPrice.toNat ∨
      (s.heldUpTo s.bestPrice.toNat = ∅ ∧ (s.recomputeBest true).bestPrice = 0) := by
  have hscan := scanBid_spec s (lt_words hbest) (s.bestPrice.toNat / 64) (Nat.le_refl _)
  rw [h.bid_set hbest] at hscan
  exact hscan

theorem BitsAgree.recomputeBest_ask (h : s.BitsAgree) (hpos : 1 ≤ s.bestPrice.toNat)
    (hbest : s.bestPrice.toNat ≤ kPriceLevels) :
    IsLeast (s.heldFrom s.bestPrice.toNat) (s.recomputeBest false).bestPrice.toNat ∨
      (s.heldFrom s.bestPrice.toNat = ∅ ∧ (s.recomputeBest false).bestPrice = 0) := by
  have hlt := lt_words hbest
  have hscan := scanAsk_spec s (kBitmapWords - s.bestPrice.toNat / 64) (s.bestPrice.toNat / 64)
    (by omega) (Nat.le_refl _)
  rw [h.ask_set hpos] at hscan
  exact hscan

/-- Two searches of one set, each with 0 for nothing found, agree. -/
theorem search_unique {P : Set Nat → Nat → Prop} {S : Set Nat} {x y : UInt32}
    (hmem : ∀ n, P S n → n ∈ S) (hunique : ∀ n m, P S n → P S m → n = m)
    (hx : P S x.toNat ∨ (S = ∅ ∧ x = 0)) (hy : P S y.toNat ∨ (S = ∅ ∧ y = 0)) : x = y := by
  have hword : ∀ z : UInt32, S = ∅ ∧ z = 0 → S = ∅ ∧ z.toNat = 0 :=
    fun _ h => ⟨h.1, congrArg UInt32.toNat h.2⟩
  apply UInt32.toNat_inj.mp
  exact BookBuilder.eq_of_extreme hunique (fun n hn => Set.nonempty_iff_ne_empty.mp ⟨n, hmem n hn⟩)
    (hx.imp_right (hword x)) (hy.imp_right (hword y))

/-- **The bitmap scan is the plain scan.** From a price of the book, `recompute_best` goes to the
nearest price with a quantity, itself included: down for a bid, up for an ask, to 0 if there is none.
The walk over the quantities gives the same side. -/
theorem recomputeBest_walk (s : SideBook) (hbits : s.BitsAgree) (hpos : 1 ≤ s.bestPrice.toNat)
    (hbest : s.bestPrice.toNat ≤ kPriceLevels) :
    (IsGreatest (s.heldUpTo s.bestPrice.toNat) (s.recomputeBest true).bestPrice.toNat ∨
        (s.heldUpTo s.bestPrice.toNat = ∅ ∧ (s.recomputeBest true).bestPrice = 0)) ∧
      (IsLeast (s.heldFrom s.bestPrice.toNat) (s.recomputeBest false).bestPrice.toNat ∨
        (s.heldFrom s.bestPrice.toNat = ∅ ∧ (s.recomputeBest false).bestPrice = 0)) ∧
      ∀ isBid, s.recomputeBest isBid = { s with bestPrice := s.walkBest isBid } := by
  have hbid := hbits.recomputeBest_bid hbest
  have hask := hbits.recomputeBest_ask hpos hbest
  refine ⟨hbid, hask, ?_⟩
  intro isBid
  have hsame : (s.recomputeBest isBid).bestPrice = s.walkBest isBid := by
    cases isBid
    · have hwalk := walkAsk_spec s (kPriceLevels + 1 - s.bestPrice.toNat) s.bestPrice.toNat (by omega)
      exact search_unique (fun _ h => h.1) (fun _ _ => IsLeast.unique) hask hwalk
    · have hwalk := walkBid_spec s s.bestPrice.toNat hbest
      exact search_unique (fun _ h => h.1) (fun _ _ => IsGreatest.unique) hbid hwalk
  rw [← hsame]
  rfl

/-! ## Sides of a book -/

/-- The bits of a side that shows some quantities are right. -/
theorem Shows.bitsAgree {L : Nat → Nat} (h : s.Shows L) : s.BitsAgree := by
  intro p hp
  have hheld : 1 ≤ p → p ≤ kPriceLevels → (s.heldAt p ≠ 0 ↔ L p ≠ 0) := by
    intro h1 h2
    have hqty : (s.heldAt p).toNat = L p := h.qty p h1 h2
    rw [← hqty, ← UInt32.toNat_inj.ne]
    rfl
  rw [h.bits p hp]
  constructor
  · intro hne
    obtain ⟨h1, h2⟩ := h.support p hne
    exact ⟨h1, h2, (hheld h1 h2).mpr hne⟩
  · rintro ⟨h1, h2, hne⟩
    exact (hheld h1 h2).mp hne

/-- Bids at 63, the top bit of word 0, and at 4096, alone in word 64; the latter is just used up. -/
def usedUp : SideBook := ((({} : SideBook).addLevel 63 7 true).addLevel 4096 5 true).lowered 4096 5

theorem usedUp_bitsAgree : usedUp.BitsAgree := by
  have hempty : ({} : SideBook).Shows fun _ => 0 := (represents_empty true).toShows
  have hlow : (({} : SideBook).addLevel 63 7 true).Shows _ :=
    addLevel_shows hempty (by decide) (by decide) (by decide) (by decide)
  have hhigh : ((({} : SideBook).addLevel 63 7 true).addLevel 4096 5 true).Shows _ :=
    addLevel_shows hlow (by decide) (by decide) (by decide) (by decide)
  exact (lowered_shows hhigh (by decide) (by decide) (by decide) (by decide)).bitsAgree

theorem recomputeBest_walk_usedUp :
    usedUp.bestPrice = 4096 ∧
      usedUp.recomputeBest true = { usedUp with bestPrice := usedUp.walkBest true } ∧
      usedUp.heldFrom 4096 = ∅ ∧ (usedUp.recomputeBest true).bestPrice = 63 := by
  have hwalk := recomputeBest_walk usedUp usedUp_bitsAgree (by decide) (by decide)
  refine ⟨by decide, hwalk.2.2 true, ?_, by decide +kernel⟩
  rcases hwalk.2.1 with hleast | hnone
  · exact absurd hleast.1.1 (by decide +kernel)
  · exact hnone.1

end MarketDataPipeline.Book.SideBook
