/-
# MarketDataPipeline.Book.Probes — what a search in the order pool costs.

`find_order` runs once for every add, modify and delete, so the slots it visits are the cost of the
book's hot path.  The pool deletes by shifting entries back, without tombstones, and this is what that
buys: however orders came and went before, the cost depends only on which ids are live now.
-/
import MarketDataPipeline.Book.Steps
import MarketDataPipeline.Library.Displacement

namespace MarketDataPipeline.Book

open MarketDataPipeline.Library.LinearProbing

namespace OrderPool

/-- The number of slots that `find_order` looks at. -/
def searchCost (orderSlot : UInt64 → Fin kOrderPool) (p : OrderPool) (orderId : UInt64) : Nat :=
  probeCount (visitOrder p.orders orderId) kOrderPool (orderSlot orderId)

/-- The ids in the pool. -/
def liveIds (p : OrderPool) : Finset UInt64 :=
  (Finset.univ.filter fun s => (p.orders s).state = 1).image fun s => (p.orders s).orderId

variable {orderSlot : UInt64 → Fin kOrderPool} {p p' : OrderPool}

theorem mem_liveIds {orderId : UInt64} :
    orderId ∈ p.liveIds ↔ ∃ s, liveKey (p.orders s) = some orderId := by
  simp only [liveIds, Finset.mem_image, Finset.mem_filter, Finset.mem_univ, true_and,
    liveKey_eq_some]

theorem Refines.mem_liveIds_iff {M : OrderMap} (h : p.Refines orderSlot M) {orderId : UInt64} :
    orderId ∈ p.liveIds ↔ orderId ∈ M := by
  rw [mem_liveIds, ← h.live, Finmap.mem_keys]

/-- A live id costs its distance from home. -/
theorem Sound.searchCost_live (h : p.Sound orderSlot) {orderId : UInt64} {s : Fin kOrderPool}
    (hs : liveKey (p.orders s) = some orderId) :
    p.searchCost orderSlot orderId = dist (orderSlot orderId) s + 1 := by
  apply probeCount_first
  · rw [visitOrder, if_neg (state_ne_zero hs), if_pos (liveKey_eq_some.mp hs)]
    exact Option.some_ne_none _
  · intro x hx
    obtain ⟨k, hk, hne⟩ := h.table.path hs hx
    rw [visitOrder, if_neg (state_ne_zero hk), if_neg]
    rintro ⟨-, hid⟩
    exact hne ((liveKey_eq_some.mp hk).2.symm.trans hid)

/-- The search for an id that is not live is decided by free slots only. -/
theorem Sound.visitOrder_absent (h : p.Sound orderSlot) {orderId : UInt64}
    (habsent : orderId ∉ p.liveIds) (s : Fin kOrderPool) :
    visitOrder p.orders orderId s = none ↔ liveKey (p.orders s) ≠ none := by
  unfold visitOrder
  cases hs : liveKey (p.orders s) with
  | none => simp [h.state_eq_zero hs]
  | some k =>
    have hne : ¬ ((p.orders s).state = 1 ∧ (p.orders s).orderId = orderId) := by
      rintro hlive
      exact habsent (mem_liveIds.mpr ⟨s, liveKey_eq_some.mpr hlive⟩)
    rw [if_neg (state_ne_zero hs), if_neg hne]
    simp

/-- All live ids together cost their displacement and one slot each. -/
theorem Sound.sum_searchCost (h : p.Sound orderSlot) :
    ∑ orderId ∈ p.liveIds, p.searchCost orderSlot orderId
      = displacement liveKey orderSlot p.orders + p.liveIds.card := by
  rw [h.table.sum_live (fun _ => mem_liveIds), Finset.card_eq_sum_ones,
    h.table.sum_live (fun _ => mem_liveIds) fun _ => 1]
  unfold displacement
  rw [← Finset.sum_add_distrib]
  apply Finset.sum_congr rfl
  intro s _
  cases hs : liveKey (p.orders s) with
  | none => rfl
  | some k => exact h.searchCost_live hs

section SameIds

variable (h : p.Sound orderSlot) (h' : p'.Sound orderSlot) (hids : p.liveIds = p'.liveIds)

include h h' hids

theorem Sound.state_unique (s : Fin kOrderPool) : (p.orders s).state = (p'.orders s).state := by
  have hocc := h.table.occupied_unique h'.table (fun _ => mem_liveIds)
    (fun k => by rw [hids]; exact mem_liveIds) s
  rw [liveKey_eq_none, liveKey_eq_none, not_iff_not] at hocc
  by_cases hs : (p.orders s).state = 1
  · rw [hs, hocc.mp hs]
  · rw [h.free s hs, h'.free s fun hs' => hs (hocc.mpr hs')]

/-- **An id that is not live costs the same**. -/
theorem Sound.searchCost_absent_unique {orderId : UInt64} (habsent : orderId ∉ p.liveIds) :
    p.searchCost orderSlot orderId = p'.searchCost orderSlot orderId := by
  apply probeCount_congr
  intro s
  rw [h.visitOrder_absent habsent, h'.visitOrder_absent (by rwa [← hids])]
  simp only [ne_eq, liveKey_eq_none, h.state_unique h' hids s]

/-- **The live ids cost the same together**, though not each for itself. -/
theorem Sound.sum_searchCost_unique :
    ∑ orderId ∈ p.liveIds, p.searchCost orderSlot orderId
      = ∑ orderId ∈ p.liveIds, p'.searchCost orderSlot orderId := by
  have hcost := h'.sum_searchCost
  rw [← hids] at hcost
  rw [h.sum_searchCost, hcost, h.table.displacement_unique h'.table (fun _ => mem_liveIds)
    (fun k => by rw [hids]; exact mem_liveIds)]

end SameIds

end OrderPool

/-- **Orders that are gone leave no trace in the pool.** After any two histories with the same live
ids the same slots are taken, a search for any other id visits the same number of slots, and so do the
searches for the live ids together. -/
theorem search_cost_history_free (msgs msgs' : List BookMsg)
    (hids : (runBook msgs).liveIds = (runBook msgs').liveIds) :
    (∀ s, ((runBook msgs).orders s).state = ((runBook msgs').orders s).state) ∧
    (∀ orderId, (runBook msgs).findOrder orderSlot orderId = none →
      (runBook msgs).searchCost orderSlot orderId = (runBook msgs').searchCost orderSlot orderId) ∧
    ∑ orderId ∈ (runBook msgs).liveIds, (runBook msgs).searchCost orderSlot orderId
      = ∑ orderId ∈ (runBook msgs).liveIds, (runBook msgs').searchCost orderSlot orderId := by
  have h := (runBook_holds msgs).pool.sound
  have h' := (runBook_holds msgs').pool.sound
  refine ⟨h.state_unique h' hids, ?_, h.sum_searchCost_unique h' hids⟩
  intro orderId hnone
  apply h.searchCost_absent_unique h' hids
  rw [OrderPool.mem_liveIds, not_exists]
  exact h.findOrder_eq_none.mp hnone

/-- The ids 1 and 326 have the same home. -/
def churned : List BookMsg :=
  [.add ⟨⟨.addOrder, 44, 1, 1⟩, 1, 3, .buy, 100, 5⟩, .add ⟨⟨.addOrder, 44, 2, 2⟩, 326, 3, .buy, 90, 7⟩,
    .delete ⟨⟨.deleteOrder, 36, 3, 3⟩, 1, 3⟩, .add ⟨⟨.addOrder, 44, 4, 4⟩, 1, 4, .sell, 80, 6⟩]

/-- The same two ids, each added once. -/
def fresh : List BookMsg :=
  [.add ⟨⟨.addOrder, 44, 1, 1⟩, 1, 3, .buy, 100, 5⟩, .add ⟨⟨.addOrder, 44, 2, 2⟩, 326, 3, .buy, 90, 7⟩]

theorem search_cost_history_free_churned :
    ∑ orderId ∈ (runBook churned).liveIds, (runBook churned).searchCost orderSlot orderId
      = ∑ orderId ∈ (runBook churned).liveIds, (runBook fresh).searchCost orderSlot orderId ∧
    (runBook churned).searchCost orderSlot 1 = 2 ∧ (runBook fresh).searchCost orderSlot 1 = 1 := by
  have hids : (runBook churned).liveIds = (runBook fresh).liveIds := by
    ext orderId
    rw [(runBook_holds churned).pool.mem_liveIds_iff, (runBook_holds fresh).pool.mem_liveIds_iff,
      ← Finmap.mem_keys, ← Finmap.mem_keys]
    rw [show (specBook churned).orders.keys = (specBook fresh).orders.keys by decide +kernel]
  exact ⟨(search_cost_history_free churned fresh hids).2.2, by decide +kernel, by decide +kernel⟩

end MarketDataPipeline.Book
