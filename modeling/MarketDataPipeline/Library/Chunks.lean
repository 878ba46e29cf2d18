/-
# MarketDataPipeline.Library.Chunks — a list cut into pieces of one length.

`Cut n xs full rest` says that `xs` is the full pieces `full`, each of length `n`, followed by a shorter
rest.  A cut is built up while the list grows (`Cut.append`), and there is only one: the number of pieces
and each of them can be read off the list (`Cut.length_pieces`, `Cut.getElem?_pieces`).
-/
import Mathlib.Data.List.Basic

namespace MarketDataPipeline.Library.Chunks

universe u

variable {α : Type u}

/-- `xs` is pieces of length `n` and a shorter rest. -/
structure Cut (n : Nat) (xs : List α) (full : List (List α)) (rest : List α) : Prop where
  flatten : full.flatten ++ rest = xs
  length_full : ∀ piece ∈ full, piece.length = n
  length_rest : rest.length < n

/-- The pieces with the rest, if there is one. -/
def pieces (full : List (List α)) (rest : List α) : List (List α) :=
  full ++ if rest = [] then [] else [rest]

namespace Cut

variable {n : Nat} {xs ys : List α} {full full' : List (List α)} {rest rest' : List α}

/-- A list that is shorter than a piece. -/
theorem of_lt (h : xs.length < n) : Cut n xs [] xs where
  flatten := rfl
  length_full := fun _ hp => nomatch hp
  length_rest := h

/-- A list that is one piece. -/
theorem of_eq (h : xs.length = n) (hn : 0 < n) : Cut n xs [xs] [] where
  flatten := by rw [List.flatten_singleton, List.append_nil]
  length_full := fun piece hp => by rw [List.mem_singleton.mp hp, h]
  length_rest := hn

/-- A piece in front. -/
theorem cons (h : Cut n xs full rest) {piece : List α} (hp : piece.length = n) :
    Cut n (piece ++ xs) (piece :: full) rest where
  flatten := by rw [List.flatten_cons, List.append_assoc, h.flatten]
  length_full := List.forall_mem_cons.mpr ⟨hp, h.length_full⟩
  length_rest := h.length_rest

/-- **A longer list is cut by cutting the rest together with what comes after it.** -/
theorem append (h : Cut n xs full rest) (h' : Cut n (rest ++ ys) full' rest') :
    Cut n (xs ++ ys) (full ++ full') rest' where
  flatten := by
    rw [List.flatten_append, List.append_assoc, h'.flatten, ← List.append_assoc, h.flatten]
  length_full := List.forall_mem_append.mpr ⟨h.length_full, h'.length_full⟩
  length_rest := h'.length_rest

theorem mem_of_mem_rest (h : Cut n xs full rest) {x : α} (hx : x ∈ rest) : x ∈ xs := by
  rw [← h.flatten]
  exact List.mem_append_right _ hx

theorem ne_nil_of_mem_pieces (h : Cut n xs full rest) {piece : List α}
    (hp : piece ∈ pieces full rest) : piece ≠ [] := by
  have hlt := h.length_rest
  rcases List.mem_append.mp hp with hp | hp
  · rintro rfl
    have hlen := h.length_full [] hp
    rw [List.length_nil] at hlen
    omega
  · split_ifs at hp with hrest
    · cases hp
    · rw [List.mem_singleton.mp hp]
      exact hrest

/-- The length of the list. -/
theorem length_eq (h : Cut n xs full rest) : xs.length = full.length * n + rest.length := by
  have hsum : full.flatten.length = full.length * n := by
    rw [List.length_flatten, List.map_congr_left h.length_full, List.map_const',
      List.sum_replicate_nat]
  rw [← h.flatten, List.length_append, hsum]

/-- **The number of pieces** is the length over `n`, rounded up. -/
theorem length_pieces (h : Cut n xs full rest) :
    (pieces full rest).length = (xs.length + n - 1) / n := by
  have hlt := h.length_rest
  rw [h.length_eq, Nat.add_assoc, Nat.add_sub_assoc (by omega), Nat.add_comm,
    Nat.add_mul_div_right _ _ (by omega)]
  unfold pieces
  rw [List.length_append]
  split_ifs with hrest
  · rw [hrest, Nat.div_eq_of_lt (by rw [List.length_nil]; omega), Nat.zero_add]
    rfl
  · have hpos := List.length_pos_iff.mpr hrest
    have hone : (rest.length + n - 1) / n = 1 := by
      rw [Nat.div_eq_iff (by omega)]
      omega
    rw [hone, List.length_singleton]
    omega

/-- **Each piece** is the part of the list at its place. -/
theorem getElem?_pieces (h : Cut n xs full rest) {k : Nat} {piece : List α}
    (hk : (pieces full rest)[k]? = some piece) : piece = (xs.drop (k * n)).take n := by
  induction full generalizing xs k with
  | nil =>
    unfold pieces at hk
    rw [List.nil_append] at hk
    obtain rfl : rest = xs := h.flatten
    split_ifs at hk
    · cases hk
    · cases k with
      | zero =>
        obtain rfl := Option.some.inj hk
        rw [Nat.zero_mul, List.drop_zero, List.take_of_length_le (Nat.le_of_lt h.length_rest)]
      | succ k => cases hk
  | cons first full ih =>
    obtain ⟨hfirst, hfull⟩ := List.forall_mem_cons.mp h.length_full
    have htail : Cut n (full.flatten ++ rest) full rest := ⟨rfl, hfull, h.length_rest⟩
    obtain rfl : first ++ (full.flatten ++ rest) = xs := by
      rw [← h.flatten, List.flatten_cons, List.append_assoc]
    cases k with
    | zero =>
      obtain rfl := Option.some.inj hk
      rw [Nat.zero_mul, List.drop_zero, ← hfirst, List.take_left]
    | succ k =>
      have hdrop : (first ++ (full.flatten ++ rest)).drop ((k + 1) * n)
          = (full.flatten ++ rest).drop (k * n) := by
        rw [Nat.succ_mul, Nat.add_comm, ← hfirst, List.drop_length_add_append]
      rw [hdrop]
      exact ih htail hk

end Cut

end MarketDataPipeline.Library.Chunks
