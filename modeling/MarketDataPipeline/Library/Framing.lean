/-
# MarketDataPipeline.Library.Framing — streams of self-delimiting frames.

A `PrefixCode` says, from the front of a string, how long the frame there is.  Its laws are those of a
prefix code: a frame that is announced lies inside the string, and the announcement depends on the
frame alone.  `Splits b ps` is what a reader that cuts frame after frame off `b` ends up with.

`Splits.consecutive` says that the pieces are consecutive from the start of the string, and
`splits_of_prefix` is unique decodability with a cut: from any prefix of a concatenation of frames the
reader recovers the frames that are wholly there, and nothing else.
-/
import Mathlib.Data.List.Infix

namespace MarketDataPipeline.Library.Framing

universe u

/-- How long the frame at the front of a string is, if there is one. -/
structure PrefixCode (α : Type u) where
  head : List α → Option Nat
  head_pos : ∀ {b n}, head b = some n → 0 < n
  head_le : ∀ {b n}, head b = some n → n ≤ b.length
  head_take : ∀ {b n}, head b = some n → ∀ t, head (b.take n ++ t) = some n

variable {α : Type u} (F : PrefixCode α)

/-- The string is one frame. -/
def PrefixCode.Whole (f : List α) : Prop := F.head f = some f.length

/-- Cutting frames off the front of `b` gives the pieces `ps` and stops where no frame follows. -/
inductive Splits : List α → List (List α) → Prop where
  | stop {b : List α} : F.head b = none → Splits b []
  | next {b : List α} {n : Nat} {ps : List (List α)} : F.head b = some n → Splits (b.drop n) ps →
      Splits b (b.take n :: ps)

variable {F}

/-- The pieces are consecutive and start at the front. -/
theorem Splits.consecutive {b : List α} {ps : List (List α)} (h : Splits F b ps) :
    ps.flatten <+: b := by
  induction h with
  | stop _ => exact List.nil_prefix
  | @next b n ps _ _ ih =>
    obtain ⟨t, ht⟩ := ih
    refine ⟨t, ?_⟩
    rw [List.flatten_cons, List.append_assoc, ht, List.take_append_drop]

/-- Every piece is a frame. -/
theorem Splits.whole {b : List α} {ps : List (List α)} (h : Splits F b ps) :
    ∀ p ∈ ps, F.Whole p := by
  induction h with
  | stop _ => exact fun p hp => absurd hp List.not_mem_nil
  | @next b n ps hhead _ ih =>
    intro p hp
    rcases List.mem_cons.mp hp with rfl | hp
    · have hself := F.head_take hhead []
      rw [List.append_nil] at hself
      unfold PrefixCode.Whole
      rw [hself, List.length_take, Nat.min_eq_left (F.head_le hhead)]
    · exact ih p hp

/-- The reader always comes to an end. -/
theorem exists_splits (b : List α) : ∃ ps, Splits F b ps := by
  induction hn : b.length using Nat.strongRecOn generalizing b with
  | _ len ih =>
    cases h : F.head b with
    | none => exact ⟨[], .stop h⟩
    | some n =>
      have hpos := F.head_pos h
      have hle := F.head_le h
      obtain ⟨ps, hps⟩ := ih (b.drop n).length (by rw [List.length_drop]; omega) (b.drop n) rfl
      exact ⟨b.take n :: ps, .next h hps⟩

theorem head_nil : F.head [] = none := by
  cases h : F.head [] with
  | none => rfl
  | some n =>
    have hpos := F.head_pos h
    have hle := F.head_le h
    exact absurd hpos (Nat.not_lt.mpr hle)

/-- What follows a frame is not looked at. -/
theorem head_append {f : List α} (hf : F.Whole f) (t : List α) : F.head (f ++ t) = some f.length := by
  have h := F.head_take hf t
  rwa [List.take_length] at h

/-- A frame that has not arrived completely is not taken for a frame. -/
theorem head_cut {f p : List α} (hf : F.Whole f) (hp : p <+: f)
    (hlt : p.length < f.length) : F.head p = none := by
  cases h : F.head p with
  | none => rfl
  | some n =>
    exfalso
    obtain ⟨t, rfl⟩ := hp
    have hsame := F.head_take h (p.drop n ++ t)
    rw [← List.append_assoc, List.take_append_drop] at hsame
    have hlen := Option.some.inj (hsame.symm.trans hf)
    have hle := F.head_le h
    omega

/-- **Unique decodability, with a cut anywhere.** From a prefix `p` of a concatenation of frames the
reader recovers the longest list of leading frames that lies inside `p`. -/
theorem splits_of_prefix {frames : List (List α)} (hw : ∀ f ∈ frames, F.Whole f) {p : List α}
    (hp : p <+: frames.flatten) :
    ∃ k ≤ frames.length, (frames.take k).flatten <+: p ∧
      (∀ j ≤ frames.length, (frames.take j).flatten <+: p → j ≤ k) ∧ Splits F p (frames.take k) := by
  induction frames generalizing p with
  | nil =>
    have hnil : p = [] := List.prefix_nil.mp hp
    subst hnil
    exact ⟨0, Nat.le_refl _, List.nil_prefix, fun j hj _ => hj, .stop head_nil⟩
  | cons f fs ih =>
    have hf : F.Whole f := hw f (List.mem_cons_self ..)
    rw [List.flatten_cons] at hp
    rcases Nat.lt_or_ge p.length f.length with hlt | hge
    · -- the cut is inside the first frame
      have hpf : p <+: f := List.prefix_of_prefix_length_le hp (List.prefix_append _ _) hlt.le
      refine ⟨0, Nat.zero_le _, List.nil_prefix, ?_, .stop (head_cut hf hpf hlt)⟩
      intro j _ hj
      cases j with
      | zero => exact Nat.le_refl _
      | succ j =>
        have hlen := hj.length_le
        rw [List.take_succ_cons, List.flatten_cons, List.length_append] at hlen
        omega
    · -- the first frame is complete; the rest is a prefix of the remaining frames
      obtain ⟨q, rfl⟩ := List.prefix_of_prefix_length_le (List.prefix_append f fs.flatten) hp hge
      rw [List.prefix_append_right_inj] at hp
      obtain ⟨k, hk, hin, hmax, hsplit⟩ := ih (fun g hg => hw g (List.mem_cons_of_mem _ hg)) hp
      refine ⟨k + 1, Nat.succ_le_succ hk, ?_, ?_, ?_⟩
      · rw [List.take_succ_cons, List.flatten_cons, List.prefix_append_right_inj]
        exact hin
      · intro j hj hjin
        cases j with
        | zero => exact Nat.zero_le _
        | succ j =>
          rw [List.take_succ_cons, List.flatten_cons, List.prefix_append_right_inj] at hjin
          exact Nat.succ_le_succ (hmax j (Nat.le_of_succ_le_succ hj) hjin)
      · have hnext := Splits.next (head_append hf q) (by rwa [List.drop_left])
        rwa [List.take_left] at hnext

/-- Without a cut the reader recovers every frame. -/
theorem splits_flatten {frames : List (List α)} (hw : ∀ f ∈ frames, F.Whole f) :
    Splits F frames.flatten frames := by
  obtain ⟨k, hk, -, hmax, hsplit⟩ := splits_of_prefix hw List.prefix_rfl
  have hall : frames.length ≤ k := hmax _ le_rfl (by rw [List.take_length])
  rwa [List.take_of_length_le hall] at hsplit

end MarketDataPipeline.Library.Framing
