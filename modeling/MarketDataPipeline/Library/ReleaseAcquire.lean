/-
# MarketDataPipeline.Library.ReleaseAcquire — threads that share a weak memory.

Atomic locations with relaxed, acquire and release accesses, and plain cells, as a machine that can be
run.  Nothing is overwritten: a location keeps every store that was made to it, with a time that orders
the stores of that location, and a load may return any store that its thread does not know to be
outdated.  What a thread knows is its view.  A release store carries the view of its thread, and a load
that acquires it adds that view to its own.  Stores may take any time that is not in use, so they need
not be made in the order of their times; a load cannot return a store that is still to come.

Plain cells are not ordered by anything but the views.  Each thread counts its accesses, a view says how
many of every thread's accesses are behind it, and an access to a cell that some earlier access to it is
not behind is a race: from then on the machine's `raced` is true.
-/
import Mathlib.Data.Fintype.Basic
import Mathlib.Order.Lattice
import Mathlib.Order.BoundedOrder.Basic
import Mathlib.Order.Nat

namespace MarketDataPipeline.Library.ReleaseAcquire

variable {Thread Loc Addr Ts Val Data : Type} [LinearOrder Ts]

/-! ## Views -/

/-- Of each location the newest store that is known, of each thread the number of its plain accesses
that are known. -/
structure View (Thread Loc Ts : Type) where
  seen : Loc → Ts
  clock : Thread → ℕ

namespace View

instance : Preorder (View Thread Loc Ts) := Preorder.lift fun v => (v.seen, v.clock)

/-- What every thread knows at the start. -/
def start [OrderBot Ts] : View Thread Loc Ts := ⟨fun _ => ⊥, fun _ => 0⟩

def join (v w : View Thread Loc Ts) : View Thread Loc Ts := ⟨v.seen ⊔ w.seen, v.clock ⊔ w.clock⟩

/-- The store with time `ts` has been seen. -/
def observe [DecidableEq Loc] (v : View Thread Loc Ts) (x : Loc) (ts : Ts) : View Thread Loc Ts :=
  { v with seen := Function.update v.seen x (max (v.seen x) ts) }

/-- One more plain access of `t`. -/
def tick [DecidableEq Thread] (v : View Thread Loc Ts) (t : Thread) : View Thread Loc Ts :=
  { v with clock := Function.update v.clock t (v.clock t + 1) }

variable {v w : View Thread Loc Ts}

theorem seen_le (h : v ≤ w) (x : Loc) : v.seen x ≤ w.seen x := h.1 x

theorem clock_le (h : v ≤ w) (t : Thread) : v.clock t ≤ w.clock t := h.2 t

theorem le_join_left : v ≤ v.join w := ⟨le_sup_left, le_sup_left⟩

theorem le_join_right : w ≤ v.join w := ⟨le_sup_right, le_sup_right⟩

theorem le_observe [DecidableEq Loc] (x : Loc) (ts : Ts) : v ≤ v.observe x ts := by
  refine ⟨fun y => ?_, le_refl v.clock⟩
  show v.seen y ≤ Function.update v.seen x (max (v.seen x) ts) y
  by_cases h : y = x
  · subst h
    rw [Function.update_self]
    exact le_max_left _ _
  · rw [Function.update_of_ne h]

theorem le_observe_seen [DecidableEq Loc] (x : Loc) (ts : Ts) : ts ≤ (v.observe x ts).seen x := by
  show ts ≤ Function.update v.seen x (max (v.seen x) ts) x
  rw [Function.update_self]
  exact le_max_right _ _

theorem le_tick [DecidableEq Thread] (t : Thread) : v ≤ v.tick t := by
  refine ⟨le_refl v.seen, fun u => ?_⟩
  show v.clock u ≤ Function.update v.clock t (v.clock t + 1) u
  by_cases h : u = t
  · subst h
    rw [Function.update_self]
    exact Nat.le_succ _
  · rw [Function.update_of_ne h]

end View

/-! ## The memory -/

/-- A store to an atomic location. -/
structure Message (Thread Loc Ts Val : Type) where
  ts : Ts
  val : Val
  /-- What a load that acquires the store gets to know. -/
  view : View Thread Loc Ts

/-- A plain cell, with the number that the last access of each thread had. -/
structure Cell (Thread Data : Type) where
  val : Data
  touched : Thread → ℕ

inductive LoadOrder where
  | relaxed
  | acquire

inductive StoreOrder where
  | relaxed
  | release

structure Memory (Thread Loc Addr Ts Val Data : Type) where
  /-- The stores to each location, the one that was made last in front. -/
  history : Loc → List (Message Thread Loc Ts Val)
  cells : Addr → Cell Thread Data
  view : Thread → View Thread Loc Ts
  raced : Bool

/-- Every access to the cell is behind `v`. -/
def Cell.Ordered (c : Cell Thread Data) (v : View Thread Loc Ts) : Prop := ∀ u, c.touched u ≤ v.clock u

instance [Fintype Thread] (c : Cell Thread Data) (v : View Thread Loc Ts) : Decidable (c.Ordered v) :=
  inferInstanceAs (Decidable (∀ u, c.touched u ≤ v.clock u))

theorem Cell.Ordered.mono {c : Cell Thread Data} {v w : View Thread Loc Ts} (h : c.Ordered v)
    (hle : v ≤ w) : c.Ordered w := fun u => (h u).trans (View.clock_le hle u)

namespace Memory

/-- One store to each location and no access to a cell, before the threads start. -/
def init [OrderBot Ts] (vals : Loc → Val) (data : Addr → Data) : Memory Thread Loc Addr Ts Val Data where
  history := fun x => [⟨⊥, vals x, .start⟩]
  cells := fun a => ⟨data a, fun _ => 0⟩
  view := fun _ => .start
  raced := false

section

variable (mem : Memory Thread Loc Addr Ts Val Data) (t : Thread) (x : Loc)

/-- `t` may load `m` from `x`. -/
def Readable (m : Message Thread Loc Ts Val) : Prop :=
  m ∈ mem.history x ∧ (mem.view t).seen x ≤ m.ts

/-- The `n`-th store to `x`, if `t` may load it. -/
def pick (n : ℕ) : Option (Message Thread Loc Ts Val) :=
  ((mem.history x)[n]?).filter fun m => (mem.view t).seen x ≤ m.ts

/-- `t` may make a store to `x` with the time `ts`. -/
def Free (ts : Ts) : Prop := (mem.view t).seen x < ts ∧ ∀ m ∈ mem.history x, m.ts ≠ ts

instance (ts : Ts) : Decidable (mem.Free t x ts) := inferInstanceAs (Decidable (_ ∧ _))

/-- `t` loads `m` from `x`. -/
def load [DecidableEq Thread] [DecidableEq Loc] (order : LoadOrder) (m : Message Thread Loc Ts Val) :
    Memory Thread Loc Addr Ts Val Data :=
  let v := (mem.view t).observe x m.ts
  { mem with
    view := Function.update mem.view t
      (match order with
        | .relaxed => v
        | .acquire => v.join m.view) }

/-- The store that `t` makes to `x`. -/
def message [DecidableEq Loc] [OrderBot Ts] (order : StoreOrder) (ts : Ts) (val : Val) :
    Message Thread Loc Ts Val where
  ts := ts
  val := val
  view :=
    match order with
    | .relaxed => View.start.observe x ts
    | .release => (mem.view t).observe x ts

/-- `t` stores `val` to `x`. -/
def store [DecidableEq Thread] [DecidableEq Loc] [OrderBot Ts] (order : StoreOrder) (ts : Ts)
    (val : Val) : Memory Thread Loc Addr Ts Val Data :=
  { mem with
    history := Function.update mem.history x (mem.message t x order ts val :: mem.history x)
    view := Function.update mem.view t ((mem.view t).observe x ts) }

/-- `t` accesses the cell `a` and leaves `d` in it. -/
def access [Fintype Thread] [DecidableEq Thread] [DecidableEq Addr] (a : Addr) (d : Data) :
    Memory Thread Loc Addr Ts Val Data :=
  let v := (mem.view t).tick t
  let c := mem.cells a
  { mem with
    cells := Function.update mem.cells a ⟨d, Function.update c.touched t (v.clock t)⟩
    view := Function.update mem.view t v
    raced := mem.raced || !decide (c.Ordered (mem.view t)) }

end

variable {mem mem' : Memory Thread Loc Addr Ts Val Data} {t u : Thread} {x y : Loc}
  {m m' : Message Thread Loc Ts Val} {cur : Loc → Message Thread Loc Ts Val}

theorem readable_of_pick {n : ℕ} (h : mem.pick t x n = some m) : mem.Readable t x m := by
  obtain ⟨hget, hseen⟩ := Option.filter_eq_some_iff.mp h
  exact ⟨List.mem_of_getElem? hget, of_decide_eq_true hseen⟩

/-- A thread that gets to know more can load less. -/
theorem Readable.of_le (h : mem'.Readable u y m) (hhistory : mem'.history y = mem.history y)
    (hview : mem.view u ≤ mem'.view u) : mem.Readable u y m :=
  ⟨hhistory ▸ h.1, (View.seen_le hview y).trans h.2⟩

/-! ## The newest stores -/

/-- `m` is the newest store of a history. -/
def Newest (history : List (Message Thread Loc Ts Val)) (m : Message Thread Loc Ts Val) : Prop :=
  m ∈ history ∧ ∀ m' ∈ history, m' = m ∨ m'.ts < m.ts

/-- `cur x` is the newest store to `x`. -/
def Current (mem : Memory Thread Loc Addr Ts Val Data) (cur : Loc → Message Thread Loc Ts Val)
    (x : Loc) : Prop :=
  Newest (mem.history x) (cur x)

/-- `t` knows the newest store to `x`. -/
def Holds (mem : Memory Thread Loc Addr Ts Val Data) (cur : Loc → Message Thread Loc Ts Val)
    (t : Thread) (x : Loc) : Prop :=
  (cur x).ts ≤ (mem.view t).seen x

theorem current_init [OrderBot Ts] (vals : Loc → Val) (data : Addr → Data) (x : Loc) :
    (init vals data : Memory Thread Loc Addr Ts Val Data).Current (fun x => ⟨⊥, vals x, .start⟩) x :=
  ⟨List.mem_singleton_self _, fun _ h => Or.inl (List.mem_singleton.mp h)⟩

theorem Holds.mono (h : mem.Holds cur t x) (hview : mem.view t ≤ mem'.view t) : mem'.Holds cur t x :=
  h.trans (View.seen_le hview x)

/-- A thread that knows the newest store can load nothing else. -/
theorem Current.eq_of_holds (h : mem.Current cur x) (hholds : mem.Holds cur t x)
    (hread : mem.Readable t x m) : m = cur x := by
  refine (h.2 m hread.1).resolve_right fun hlt => ?_
  exact absurd (hholds.trans hread.2) (not_le_of_gt hlt)

/-! ## Loads -/

section Load

variable [DecidableEq Thread] [DecidableEq Loc] {order : LoadOrder}

theorem view_le_load : mem.view u ≤ (mem.load t x order m).view u := by
  unfold load
  by_cases h : u = t
  · subst h
    cases order with
    | relaxed =>
      simp only [Function.update_self]
      exact View.le_observe x m.ts
    | acquire =>
      simp only [Function.update_self]
      exact (View.le_observe x m.ts).trans View.le_join_left
  · simp only [Function.update_of_ne h, le_refl]

theorem le_load_seen : m.ts ≤ ((mem.load t x order m).view t).seen x := by
  unfold load
  cases order with
  | relaxed =>
    simp only [Function.update_self]
    exact View.le_observe_seen x m.ts
  | acquire =>
    simp only [Function.update_self]
    exact (View.le_observe_seen x m.ts).trans (View.seen_le View.le_join_left x)

/-- After an acquire the thread knows what the store carries. -/
theorem le_load_acquire : m.view ≤ (mem.load t x .acquire m).view t := by
  simp only [load, Function.update_self]
  exact View.le_join_right

end Load

/-! ## Stores -/

section Store

variable [DecidableEq Loc] [OrderBot Ts] {order : StoreOrder} {ts : Ts} {val : Val}

/-- A release carries what its thread knows. -/
theorem view_le_message : mem.view t ≤ (mem.message t x .release ts val).view :=
  View.le_observe x ts

variable [DecidableEq Thread]

theorem view_le_store : mem.view u ≤ (mem.store t x order ts val).view u := by
  unfold store
  by_cases h : u = t
  · subst h
    simp only [Function.update_self]
    exact View.le_observe x ts
  · simp only [Function.update_of_ne h, le_refl]

theorem store_history_self : (mem.store t x order ts val).history x =
    mem.message t x order ts val :: mem.history x := by
  simp only [store, Function.update_self]

theorem store_history_ne (h : y ≠ x) : (mem.store t x order ts val).history y = mem.history y := by
  simp only [store, Function.update_of_ne h]

theorem readable_of_store_ne (hne : y ≠ x) (h : (mem.store t x order ts val).Readable u y m) :
    mem.Readable u y m :=
  h.of_le (store_history_ne hne) view_le_store

/-- What can be loaded after a store is that store or could be loaded before. -/
theorem readable_of_store (h : (mem.store t x order ts val).Readable u x m) :
    m = mem.message t x order ts val ∨ mem.Readable u x m := by
  obtain ⟨hmem, hseen⟩ := h
  rw [store_history_self, List.mem_cons] at hmem
  exact hmem.imp_right fun hold => ⟨hold, (View.seen_le view_le_store x).trans hseen⟩

/-- A store by a thread that knows the newest one is the newest from then on. -/
theorem Current.store (h : mem.Current cur x) (hholds : mem.Holds cur t x) (hfree : mem.Free t x ts) :
    (mem.store t x order ts val).Current (Function.update cur x (mem.message t x order ts val)) x := by
  unfold Current
  rw [store_history_self, Function.update_self]
  refine ⟨List.mem_cons_self, fun m hm => ?_⟩
  refine (List.mem_cons.mp hm).imp_right fun hold => ?_
  have hle : m.ts ≤ (cur x).ts := (h.2 m hold).elim (fun heq => heq ▸ le_rfl) le_of_lt
  exact (hle.trans hholds).trans_lt hfree.1

theorem Current.store_ne (h : mem.Current cur y) (hne : y ≠ x) :
    (mem.store t x order ts val).Current (Function.update cur x m) y := by
  unfold Current
  rw [store_history_ne hne, Function.update_of_ne hne]
  exact h

theorem holds_store : (mem.store t x order ts val).Holds
    (Function.update cur x (mem.message t x order ts val)) t x := by
  unfold Holds
  rw [Function.update_self]
  simp only [Memory.store, Function.update_self]
  exact View.le_observe_seen x ts

theorem Holds.store_ne (h : mem.Holds cur u y) (hne : y ≠ x) :
    (mem.store t x order ts val).Holds (Function.update cur x m) u y := by
  unfold Holds
  rw [Function.update_of_ne hne]
  exact h.mono view_le_store

end Store

/-! ## Plain accesses -/

section Access

variable [Fintype Thread] [DecidableEq Thread] [DecidableEq Addr] {a b : Addr} {d : Data}

theorem view_le_access : mem.view u ≤ (mem.access t a d).view u := by
  unfold access
  by_cases h : u = t
  · subst h
    simp only [Function.update_self]
    exact View.le_tick u
  · simp only [Function.update_of_ne h, le_refl]

omit [LinearOrder Ts]

theorem access_cells_ne (h : b ≠ a) : (mem.access t a d).cells b = mem.cells b := by
  simp only [access, Function.update_of_ne h]

theorem access_val : ((mem.access t a d).cells a).val = d := by
  simp only [access, Function.update_self]

/-- A thread that has every access to the cell behind it keeps it so by its own. -/
theorem ordered_access (h : (mem.cells a).Ordered (mem.view t)) :
    ((mem.access t a d).cells a).Ordered ((mem.access t a d).view t) := by
  intro u
  simp only [access, Function.update_self, View.tick]
  by_cases hu : u = t
  · subst hu
    simp only [Function.update_self, le_refl]
  · simp only [Function.update_of_ne hu]
    exact h u

theorem access_raced (h : (mem.cells a).Ordered (mem.view t)) :
    (mem.access t a d).raced = mem.raced := by
  simp only [access, h, decide_true, Bool.not_true, Bool.or_false]

-- two threads that have not heard of each other
example : (((init (fun _ => 0) fun _ => 0 : Memory Bool Unit Unit ℕ ℕ ℕ).access true () 1).access
    false () 2).raced = true := by decide

end Access

end Memory

end MarketDataPipeline.Library.ReleaseAcquire
