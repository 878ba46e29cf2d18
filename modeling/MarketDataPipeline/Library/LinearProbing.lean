/-
# MarketDataPipeline.Library.LinearProbing — cyclic tables with backshift deletion.

A table is a function from the `N` slots, taken as a cycle, to records; `key` says which key a record
holds, if any, and `home` where the search for a key starts.  A slot is *on the path* of an entry if
the search for the entry passes it before it arrives (`OnPath`), and *clear* if it is on no entry's
path (`Clear`).

The textbook invariant is that empty slots are clear.  It says nothing about a full table, and
deleting from a full table in an arbitrary state is indeed wrong.  What makes it right is that a table
filled by insertions keeps one clear slot even then: the one that was filled last.  `Sound` therefore
asks for a clear slot in addition, whether occupied or not.

Deletion walks from the slot that is freed and moves entries back into the hole.  `Shifting` is its
loop invariant: the hole never gets past the clear slot, and no entry behind the cursor has the hole,
or any slot between the cursor and the clear slot, on its path.
-/
import Mathlib.Algebra.Group.Fin.Basic
import Mathlib.Algebra.GroupWithZero.Nat
import Mathlib.Data.Finset.Max
import Mathlib.Data.Fintype.Card

namespace MarketDataPipeline.Library.LinearProbing

variable {N : Nat} {K R β : Type}

/-! ## The cycle of slots -/

/-- The number of steps from `a` forward to `b`. -/
def dist (a b : Fin N) : Nat := (b - a).val

theorem dist_eq (a b : Fin N) :
    dist a b = if a.val ≤ b.val then b.val - a.val else N + b.val - a.val := by
  unfold dist
  rw [Fin.sub_def]
  dsimp only
  have ha := a.isLt
  have hb := b.isLt
  split_ifs with h
  · rw [show N - a.val + b.val = (b.val - a.val) + N by omega, Nat.add_mod_right,
      Nat.mod_eq_of_lt (by omega)]
  · rw [Nat.mod_eq_of_lt (by omega)]
    omega

theorem dist_lt (a b : Fin N) : dist a b < N := (b - a).isLt

@[simp] theorem dist_self (a : Fin N) : dist a a = 0 := by
  rw [dist_eq]
  simp

/-- The distance from `a`, measured from another slot `f`. -/
theorem dist_from (f a b : Fin N) :
    dist a b = if dist f a ≤ dist f b then dist f b - dist f a else N + dist f b - dist f a := by
  have : NeZero N := ⟨Nat.ne_of_gt f.pos⟩
  have hshift : dist a b = dist (a - f) (b - f) := by
    unfold dist
    rw [sub_sub_sub_cancel_right]
  rw [hshift, dist_eq]
  rfl

theorem dist_inj {a b c : Fin N} (h : dist a b = dist a c) : b = c := by
  rw [dist_eq, dist_eq] at h
  have hb := b.isLt
  have hc := c.isLt
  apply Fin.ext
  split_ifs at h <;> omega

theorem dist_eq_zero {a b : Fin N} (h : dist a b = 0) : b = a :=
  dist_inj (h.trans (dist_self a).symm)

theorem val_succ [NeZero N] (b : Fin N) :
    (b + 1).val = if b.val + 1 = N then 0 else b.val + 1 := by
  have hb := b.isLt
  rw [Fin.val_add, Fin.val_one', Nat.add_mod_mod]
  split_ifs with h
  · rw [h, Nat.mod_self]
  · exact Nat.mod_eq_of_lt (by omega)

/-- One step forward, up to the point where the cycle closes. -/
theorem dist_succ [NeZero N] {a b : Fin N} (h : b + 1 ≠ a) : dist a (b + 1) = dist a b + 1 := by
  have hb := b.isLt
  have hne : (b + 1).val ≠ a.val := fun heq => h (Fin.ext heq)
  rw [dist_eq, dist_eq]
  rw [val_succ] at hne ⊢
  split_ifs at hne ⊢ <;> omega

/-- The last step of the cycle. -/
theorem dist_closed [NeZero N] {a b : Fin N} (h : b + 1 = a) : dist a b + 1 = N := by
  have hb := b.isLt
  subst h
  rw [dist_eq, val_succ]
  split_ifs <;> omega

/-- `x` is passed strictly before `s` on the way from `a`. -/
def OnPath (a s x : Fin N) : Prop := dist a x < dist a s

instance (a s x : Fin N) : Decidable (OnPath a s x) := inferInstanceAs (Decidable (_ < _))

/-- Seen from `f`, a slot between a slot on the path and the end of the path is on the path. -/
theorem OnPath.between {f a s x y : Fin N} (h : OnPath a s x) (hxy : dist f x ≤ dist f y)
    (hys : dist f y < dist f s) : OnPath a s y := by
  have hs := dist_lt f s
  unfold OnPath at h ⊢
  rw [dist_from f a s] at h ⊢
  rw [dist_from f a x] at h
  rw [dist_from f a y]
  split_ifs at h ⊢ <;> omega

/-- The same when the way from `x` to the end of the path leads through `f`. -/
theorem OnPath.between_wrap {f a s x y : Fin N} (h : OnPath a s x) (hsx : dist f s < dist f x)
    (hxy : dist f x ≤ dist f y) : OnPath a s y := by
  have hy := dist_lt f y
  unfold OnPath at h ⊢
  rw [dist_from f a s] at h ⊢
  rw [dist_from f a x] at h
  rw [dist_from f a y]
  split_ifs at h ⊢ <;> omega

/-! ## Probing -/

/-- The search loop: visit up to `n` slots from `i` on and return what the first visit that decides
says. -/
def probe [NeZero N] (visit : Fin N → Option β) : Nat → Fin N → Option β
  | 0, _ => none
  | n + 1, i =>
    match visit i with
    | some b => some b
    | none => probe visit n (i + 1)

section Probe

variable [NeZero N] {visit : Fin N → Option β} {a : Fin N}

/-- A full round decides at the first slot that decides. -/
theorem probe_first {s : Fin N} {b : β} (hs : visit s = some b)
    (hpath : ∀ x, OnPath a s x → visit x = none) : probe visit N a = some b := by
  have key : ∀ (n : Nat) (i : Fin N), dist a i ≤ dist a s → dist a s < dist a i + n →
      probe visit n i = some b := by
    intro n
    induction n with
    | zero => intro i hle hlt; omega
    | succ n ih =>
      intro i hle hlt
      unfold probe
      rcases Nat.lt_or_ge (dist a i) (dist a s) with hbefore | hge
      · rw [hpath i hbefore]
        have hstep : dist a (i + 1) = dist a i + 1 := by
          apply dist_succ
          intro hclosed
          have hend := dist_closed hclosed
          have hN := dist_lt a s
          omega
        exact ih (i + 1) (by omega) (by omega)
      · obtain rfl : i = s := dist_inj (Nat.le_antisymm hle hge)
        rw [hs]
  refine key N a (by rw [dist_self]; exact Nat.zero_le _) ?_
  rw [dist_self, Nat.zero_add]
  exact dist_lt a s

/-- What a search returns was said by a visit. -/
theorem probe_some {n : Nat} {i : Fin N} {b : β} (h : probe visit n i = some b) :
    ∃ s, visit s = some b := by
  induction n generalizing i with
  | zero => cases h
  | succ n ih =>
    unfold probe at h
    cases hv : visit i with
    | some b' =>
      rw [hv] at h
      exact ⟨i, hv.trans h⟩
    | none =>
      rw [hv] at h
      exact ih h

omit [NeZero N] in
/-- Among the slots that decide there is a first one. -/
theorem exists_first (p : Fin N → Prop) [DecidablePred p] (h : ∃ s, p s) (a : Fin N) :
    ∃ s, p s ∧ ∀ x, OnPath a s x → ¬ p x := by
  obtain ⟨s, hs, hmin⟩ := Finset.exists_min_image (Finset.univ.filter p) (dist a)
    (by obtain ⟨s, hs⟩ := h; exact ⟨s, by simpa using hs⟩)
  refine ⟨s, by simpa using hs, fun x hx hp => ?_⟩
  have hle := hmin x (by simpa using hp)
  exact absurd hx (Nat.not_lt.mpr hle)

end Probe

/-! ## Tables -/

section Tables

variable (key : R → Option K) (home : K → Fin N)

/-- No entry has the slot on its path. -/
def Clear (T : Fin N → R) (x : Fin N) : Prop :=
  ∀ s k, key (T s) = some k → ¬ OnPath (home k) s x

/-- The invariant of a table that was filled and emptied by its own operations. -/
structure Sound (T : Fin N → R) : Prop where
  unique : ∀ s s' k, key (T s) = some k → key (T s') = some k → s = s'
  empties : ∀ x, key (T x) = none → Clear key home T x
  spare : ∃ b, Clear key home T b

variable {key home}

/-- The search for an entry passes only slots that hold other keys. -/
theorem Sound.path {T : Fin N → R} (h : Sound key home T) {s x : Fin N} {k : K}
    (hs : key (T s) = some k) (hx : OnPath (home k) s x) : ∃ k', key (T x) = some k' ∧ k' ≠ k := by
  cases hk : key (T x) with
  | none => exact absurd hx (h.empties x hk s k hs)
  | some k' =>
    refine ⟨k', rfl, ?_⟩
    rintro rfl
    obtain rfl := h.unique s x k' hs hk
    exact absurd hx (Nat.lt_irrefl _)

/-- An empty table. -/
theorem sound_empty [NeZero N] {T : Fin N → R} (h : ∀ s, key (T s) = none) : Sound key home T := by
  have hclear : ∀ x, Clear key home T x := by
    intro x s k hs
    rw [h s] at hs
    cases hs
  refine ⟨?_, fun x _ => hclear x, ⟨0, hclear 0⟩⟩
  intro s s' k hs
  rw [h s] at hs
  cases hs

/-- The keys of an updated table. -/
theorem key_update {T : Fin N → R} {s x : Fin N} {r : R} {k : K}
    (h : key (Function.update T s r x) = some k) :
    (x = s ∧ key r = some k) ∨ (x ≠ s ∧ key (T x) = some k) := by
  by_cases hx : x = s
  · subst hx
    rw [Function.update_self] at h
    exact Or.inl ⟨rfl, h⟩
  · rw [Function.update_of_ne hx] at h
    exact Or.inr ⟨hx, h⟩

/-- **Insertion** of a new key into the first free slot of its search. -/
theorem Sound.insert {T : Fin N → R} (h : Sound key home T) {s : Fin N} {k : K} {r : R}
    (hfree : key (T s) = none) (hnew : ∀ x, key (T x) ≠ some k)
    (hpath : ∀ x, OnPath (home k) s x → key (T x) ≠ none) (hr : key r = some k) :
    Sound key home (Function.update T s r) := by
  -- a slot that was clear stays clear unless the new entry passes it
  have hclear : ∀ x, Clear key home T x → ¬ OnPath (home k) s x →
      Clear key home (Function.update T s r) x := by
    intro x hx hnot s' k' hs'
    rcases key_update hs' with ⟨rfl, hk⟩ | ⟨-, hk⟩
    · obtain rfl : k = k' := Option.some.inj (hr.symm.trans hk)
      exact hnot
    · exact hx s' k' hk
  refine ⟨?_, ?_, ⟨s, hclear s (h.empties s hfree) (Nat.lt_irrefl _)⟩⟩
  · intro x x' k' hx hx'
    rcases key_update hx with ⟨rfl, hk⟩ | ⟨hne, hk⟩ <;>
      rcases key_update hx' with ⟨rfl, hk'⟩ | ⟨hne', hk'⟩
    · rfl
    · obtain rfl : k = k' := Option.some.inj (hr.symm.trans hk)
      exact absurd hk' (hnew x')
    · obtain rfl : k = k' := Option.some.inj (hr.symm.trans hk')
      exact absurd hk (hnew x)
    · exact h.unique x x' k' hk hk'
  · intro x hx
    have hxs : x ≠ s := by
      rintro rfl
      rw [Function.update_self, hr] at hx
      cases hx
    rw [Function.update_of_ne hxs] at hx
    exact hclear x (h.empties x hx) (fun hon => hpath x hon hx)

/-- Rewriting the record of a slot under the same key. -/
theorem Sound.rewrite {T : Fin N → R} (h : Sound key home T) {s : Fin N} {r : R}
    (hr : key r = key (T s)) : Sound key home (Function.update T s r) := by
  have hsame : ∀ x, key (Function.update T s r x) = key (T x) := by
    intro x
    by_cases hx : x = s
    · subst hx
      rw [Function.update_self, hr]
    · rw [Function.update_of_ne hx]
  have hclear : ∀ x, Clear key home T x → Clear key home (Function.update T s r) x := by
    intro x hx s' k hs'
    rw [hsame] at hs'
    exact hx s' k hs'
  refine ⟨?_, ?_, ?_⟩
  · intro x x' k hx hx'
    rw [hsame] at hx hx'
    exact h.unique x x' k hx hx'
  · intro x hx
    rw [hsame] at hx
    exact hclear x (h.empties x hx)
  · obtain ⟨b, hb⟩ := h.spare
    exact ⟨b, hclear b hb⟩

/-! ## Backshift deletion -/

/-- **The loop invariant of deletion.** The table was `T₀` and slot `f` is being freed; `n` slots have
been handled, the hole is at `h`, and `b` is a slot that was clear. -/
structure Shifting (key : R → Option K) (home : K → Fin N) (T₀ : Fin N → R) (f b : Fin N) (n : Nat)
    (h : Fin N) (T : Fin N → R) : Prop where
  hole : key (T₀ h) ≠ none
  hole_lt : dist f h < n
  hole_le : dist f h ≤ dist f b
  rest : ∀ s, n ≤ dist f s → T s = T₀ s
  occupied : ∀ s, s ≠ h → (key (T s) = none ↔ key (T₀ s) = none)
  content : ∀ r, (∃ s, s ≠ h ∧ T s = r) ↔ ∃ s, s ≠ f ∧ T₀ s = r
  unique : ∀ s s' k, s ≠ h → s' ≠ h → key (T s) = some k → key (T s') = some k → s = s'
  clear : ∀ x, Clear key home T₀ x → ∀ s k, s ≠ h → key (T s) = some k → ¬ OnPath (home k) s x
  avoid : ∀ s k, s ≠ h → dist f s < n → key (T s) = some k → ¬ OnPath (home k) s h ∧
    ∀ y, n ≤ dist f y → dist f y ≤ dist f b → ¬ OnPath (home k) s y

theorem shifting_start {T₀ : Fin N → R} (hs : Sound key home T₀) {f b : Fin N}
    (hf : key (T₀ f) ≠ none) : Shifting key home T₀ f b 1 f T₀ where
  hole := hf
  hole_lt := by rw [dist_self]; exact Nat.one_pos
  hole_le := by rw [dist_self]; exact Nat.zero_le _
  rest := fun _ _ => rfl
  occupied := fun _ _ => Iff.rfl
  content := fun _ => Iff.rfl
  unique := fun s s' k _ _ => hs.unique s s' k
  clear := fun x hx s k _ => hx s k
  avoid := by
    intro s k hne hlt
    exact absurd (dist_eq_zero (Nat.lt_one_iff.mp hlt)) hne

variable {T₀ T : Fin N → R} {f b h c : Fin N} {n : Nat} {k : K}

/-- The entry at the cursor passes neither the clear slot nor anything between the cursor and it. -/
theorem Shifting.cursor (hb : Clear key home T₀ b) (hk : key (T₀ c) = some k) {y : Fin N}
    (hcy : dist f c < dist f y) (hyb : dist f y ≤ dist f b) : ¬ OnPath (home k) c y := by
  intro hy
  exact hb c k hk (hy.between_wrap hcy hyb)

/-- A pass that leaves the entry at the cursor where it is. -/
theorem Shifting.keep (hs : Shifting key home T₀ f b n h T) (hb : Clear key home T₀ b)
    (hc : dist f c = n) (hk : key (T c) = some k) (hstay : ¬ OnPath (home k) c h) :
    Shifting key home T₀ f b (n + 1) h T := by
  have hk₀ : key (T₀ c) = some k := by rw [← hs.rest c (Nat.le_of_eq hc.symm)]; exact hk
  refine ⟨hs.hole, Nat.lt_succ_of_lt hs.hole_lt, hs.hole_le, fun s hle => hs.rest s (Nat.le_of_succ_le hle),
    hs.occupied, hs.content, hs.unique, hs.clear, ?_⟩
  intro s k' hne hlt hk'
  rcases Nat.lt_or_eq_of_le (Nat.lt_succ_iff.mp hlt) with hlt | heq
  · obtain ⟨hhole, hahead⟩ := hs.avoid s k' hne hlt hk'
    exact ⟨hhole, fun y hy => hahead y (Nat.le_of_succ_le hy)⟩
  · obtain rfl : s = c := dist_inj (heq.trans hc.symm)
    obtain rfl : k = k' := Option.some.inj (hk.symm.trans hk')
    exact ⟨hstay, fun y hy hyb => Shifting.cursor hb hk₀ (by omega) hyb⟩

/-- A pass that moves the entry at the cursor into the hole. -/
theorem Shifting.move (hs : Shifting key home T₀ f b n h T) (hb : Clear key home T₀ b)
    (hc : dist f c = n) (hk : key (T c) = some k) (hmove : OnPath (home k) c h) :
    Shifting key home T₀ f b (n + 1) c (Function.update T h (T c)) := by
  have hTc : T c = T₀ c := hs.rest c (Nat.le_of_eq hc.symm)
  have hk₀ : key (T₀ c) = some k := by rw [← hTc]; exact hk
  have hch : c ≠ h := by
    rintro rfl
    exact absurd hmove (Nat.lt_irrefl _)
  -- the hole cannot get past the clear slot, which is not on the path of the entry
  have hcb : dist f c ≤ dist f b := by
    by_contra hlt
    exact hb c k hk₀ (hmove.between hs.hole_le (Nat.lt_of_not_le hlt))
  refine ⟨by rw [hk₀]; exact Option.some_ne_none k, by omega, hcb, ?_, ?_, ?_, ?_, ?_, ?_⟩
  · intro s hle
    have hsh : s ≠ h := by
      rintro rfl
      have hlt := hs.hole_lt
      omega
    rw [Function.update_of_ne hsh]
    exact hs.rest s (Nat.le_of_succ_le hle)
  · intro s hne
    by_cases hsh : s = h
    · subst hsh
      rw [Function.update_self, hk]
      exact ⟨fun hn => (Option.some_ne_none k hn).elim, fun hn => (hs.hole hn).elim⟩
    · rw [Function.update_of_ne hsh]
      exact hs.occupied s hsh
  · intro r
    rw [← hs.content r]
    constructor
    · rintro ⟨s, hne, hr⟩
      by_cases hsh : s = h
      · subst hsh
        rw [Function.update_self] at hr
        exact ⟨c, hch, hr⟩
      · rw [Function.update_of_ne hsh] at hr
        exact ⟨s, hsh, hr⟩
    · rintro ⟨s, hsh, hr⟩
      by_cases hsc : s = c
      · subst hsc
        exact ⟨h, hch.symm, by rw [Function.update_self]; exact hr⟩
      · exact ⟨s, hsc, by rw [Function.update_of_ne hsh]; exact hr⟩
  · intro s s' k' hne hne' hk' hk''
    rcases key_update hk' with ⟨rfl, h1⟩ | ⟨hsh, h1⟩ <;>
      rcases key_update hk'' with ⟨rfl, h2⟩ | ⟨hsh', h2⟩
    · rfl
    · exact absurd (hs.unique c s' k' hch hsh' h1 h2).symm hne'
    · exact absurd (hs.unique s c k' hsh hch h1 h2) hne
    · exact hs.unique s s' k' hsh hsh' h1 h2
  · intro x hx s k' hne hk'
    rcases key_update hk' with ⟨rfl, h1⟩ | ⟨hsh, h1⟩
    · obtain rfl : k = k' := Option.some.inj (hk.symm.trans h1)
      intro hon
      exact hs.clear x hx c k hch hk (Nat.lt_trans hon hmove)
    · exact hs.clear x hx s k' hsh h1
  · intro s k' hne hlt hk'
    have hlt' : dist f s < n := by
      rcases Nat.lt_or_eq_of_le (Nat.lt_succ_iff.mp hlt) with hlt | heq
      · exact hlt
      · exact absurd (dist_inj (heq.trans hc.symm)) hne
    rcases key_update hk' with ⟨rfl, h1⟩ | ⟨hsh, h1⟩
    · -- the entry that was moved: its new path is the front part of the old one
      obtain rfl : k = k' := Option.some.inj (hk.symm.trans h1)
      refine ⟨fun hon => Nat.lt_irrefl _ (Nat.lt_trans hon hmove), ?_⟩
      intro y hy hyb hon
      exact Shifting.cursor hb hk₀ (by omega) hyb (Nat.lt_trans hon hmove)
    · obtain ⟨-, hahead⟩ := hs.avoid s k' hsh hlt' h1
      exact ⟨hahead c (Nat.le_of_eq hc.symm) hcb, fun y hy => hahead y (Nat.le_of_succ_le hy)⟩

/-- **Deletion is sound.** The loop may end at an empty slot or after a full round. -/
theorem Shifting.finish (hs : Shifting key home T₀ f b n h T) (hT₀ : Sound key home T₀) {r₀ : R}
    (hr₀ : key r₀ = none) (hend : (∀ s, dist f s < n) ∨ ∃ c, dist f c = n ∧ key (T c) = none) :
    Sound key home (Function.update T h r₀) := by
  have hentry : ∀ {s k}, key (Function.update T h r₀ s) = some k → s ≠ h ∧ key (T s) = some k := by
    intro s k hk
    rcases key_update hk with ⟨-, hk⟩ | hk
    · rw [hr₀] at hk
      cases hk
    · exact hk
  have hhole : Clear key home (Function.update T h r₀) h := by
    intro s k hk hon
    obtain ⟨hne, hk⟩ := hentry hk
    rcases Nat.lt_or_ge (dist f s) n with hlt | hge
    · exact (hs.avoid s k hne hlt hk).1 hon
    -- an entry behind the empty slot that stopped the loop would have passed that slot too
    · rcases hend with hall | ⟨c, hc, hempty⟩
      · exact absurd (hall s) (Nat.not_lt.mpr hge)
      · have hcs : dist f c < dist f s := by
          rcases Nat.lt_or_eq_of_le hge with hlt | heq
          · omega
          · rw [dist_inj (hc.trans heq), hk] at hempty
            cases hempty
        have hch : c ≠ h := by
          rintro rfl
          have hlt := hs.hole_lt
          omega
        have hempty₀ := (hs.occupied c hch).mp hempty
        have hlt := hs.hole_lt
        exact hs.clear c (hT₀.empties c hempty₀) s k hne hk (hon.between (by omega) hcs)
  refine ⟨?_, ?_, ⟨h, hhole⟩⟩
  · intro s s' k hk hk'
    obtain ⟨hne, hk⟩ := hentry hk
    obtain ⟨hne', hk'⟩ := hentry hk'
    exact hs.unique s s' k hne hne' hk hk'
  · intro x hx
    by_cases hxh : x = h
    · rw [hxh]
      exact hhole
    · rw [Function.update_of_ne hxh] at hx
      intro s k hk
      obtain ⟨hne, hk⟩ := hentry hk
      exact hs.clear x (hT₀.empties x ((hs.occupied x hxh).mp hx)) s k hne hk

/-- What is left after a deletion: all records but the one in the slot that was freed. -/
theorem Shifting.finish_content (hs : Shifting key home T₀ f b n h T) {r₀ : R} (r : R) (hr : r ≠ r₀) :
    (∃ s, Function.update T h r₀ s = r) ↔ ∃ s, s ≠ f ∧ T₀ s = r := by
  rw [← hs.content r]
  constructor
  · rintro ⟨s, heq⟩
    by_cases hsh : s = h
    · rw [hsh, Function.update_self] at heq
      exact absurd heq.symm hr
    · rw [Function.update_of_ne hsh] at heq
      exact ⟨s, hsh, heq⟩
  · rintro ⟨s, hsh, heq⟩
    exact ⟨s, by rw [Function.update_of_ne hsh]; exact heq⟩

/-! ## Counting -/

/-- A table with unique keys has as many keys as occupied slots. -/
theorem Sound.card_occupied [DecidableEq K] (hs : Sound key home T) {live : Finset K}
    (hlive : ∀ k, k ∈ live ↔ ∃ s, key (T s) = some k) :
    live.card = (Finset.univ.filter fun s => key (T s) ≠ none).card := by
  have hinj : Set.InjOn (fun s => key (T s)) (Finset.univ.filter fun s => key (T s) ≠ none) := by
    intro s hmem s' _ heq
    obtain ⟨k, hk⟩ := Option.ne_none_iff_exists'.mp (Finset.mem_filter.mp hmem).2
    exact hs.unique s s' k hk (Eq.trans heq.symm hk)
  rw [← Finset.card_image_of_injOn hinj,
    ← Finset.card_image_of_injective live (Option.some_injective K)]
  congr 1
  ext o
  simp only [Finset.mem_image, Finset.mem_filter, Finset.mem_univ, true_and]
  constructor
  · rintro ⟨k, hk, rfl⟩
    obtain ⟨s, hs⟩ := (hlive k).mp hk
    exact ⟨s, by rw [hs]; exact Option.some_ne_none k, hs⟩
  · rintro ⟨s, hne, rfl⟩
    obtain ⟨k, hk⟩ := Option.ne_none_iff_exists'.mp hne
    exact ⟨k, (hlive k).mpr ⟨s, hk⟩, hk.symm⟩

/-- There is a free slot as long as there are fewer keys than slots. -/
theorem Sound.exists_free [DecidableEq K] (hs : Sound key home T) {live : Finset K}
    (hlive : ∀ k, k ∈ live ↔ ∃ s, key (T s) = some k) :
    (∃ s, key (T s) = none) ↔ live.card < N := by
  rw [hs.card_occupied hlive]
  constructor
  · rintro ⟨s, hs⟩
    have hlt := Finset.card_lt_card (Finset.filter_ssubset.mpr
      ⟨s, Finset.mem_univ s, fun hne => hne hs⟩ : (Finset.univ.filter fun s => key (T s) ≠ none) ⊂ _)
    rwa [Finset.card_univ, Fintype.card_fin] at hlt
  · intro hlt
    by_contra hnone
    rw [not_exists] at hnone
    rw [Finset.filter_true_of_mem fun s _ => hnone s, Finset.card_univ, Fintype.card_fin] at hlt
    exact Nat.lt_irrefl _ hlt

end Tables

end MarketDataPipeline.Library.LinearProbing
