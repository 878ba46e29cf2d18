/-
# MarketDataPipeline.Library.Linearizability — concurrent objects against sequential ones.

A history is what the callers of a concurrent object see: calls and returns, each of a process that has
one call open at a time.  It is linearizable with respect to a sequential object when the calls can be
lined up in one order that the object explains, and that is compatible with the history at every
moment: what has returned is in the line with its result, and nothing is in the line that has not been
called (`Linearizable`).  So a call that returns before another begins comes first.

The way to prove it is to name the moment at which each call takes effect.  A run whose labels say so is
checked against the object one label at a time (`Config.Next`), and a run that passes has a linearizable
history (`linearizable_of_accepted`); `foldl_accepted` is the rule for programs with a step function.
-/
import Mathlib.Data.List.Infix
import Mathlib.Logic.Function.Basic

namespace MarketDataPipeline.Library.Linearizability

universe u

/-- An object that serves one operation after the other. -/
structure SeqObject (σ Op Ret : Type u) where
  init : σ
  apply : σ → Op → σ × Ret

/-- What the callers see. -/
inductive Event (Proc Op Ret : Type u) where
  | call (p : Proc) (op : Op)
  | ret (p : Proc) (r : Ret)

/-- A completed operation in the line. -/
structure Entry (Proc Op Ret : Type u) where
  proc : Proc
  op : Op
  result : Ret

variable {σ Proc Op Ret : Type u}

/-! ## Histories -/

section

variable [DecidableEq Proc]

/-- The operations that a process has called, in order. -/
def called (p : Proc) (h : List (Event Proc Op Ret)) : List Op :=
  h.filterMap fun
    | .call q op => if q = p then some op else none
    | .ret _ _ => none

/-- The results that a process has got, in order. -/
def returned (p : Proc) (h : List (Event Proc Op Ret)) : List Ret :=
  h.filterMap fun
    | .call _ _ => none
    | .ret q r => if q = p then some r else none

/-- The entries of a process. -/
def entriesOf (p : Proc) (line : List (Entry Proc Op Ret)) : List (Entry Proc Op Ret) :=
  line.filter fun e => e.proc = p

end

namespace SeqObject

variable (obj : SeqObject σ Op Ret)

/-- The state after some operations. -/
def after (line : List (Entry Proc Op Ret)) : σ :=
  line.foldl (fun s e => (obj.apply s e.op).1) obj.init

/-- The object gives every operation of the line its result. -/
def Explains (line : List (Entry Proc Op Ret)) : Prop :=
  ∀ pre e, pre ++ [e] <+: line → (obj.apply (obj.after pre) e.op).2 = e.result

/-- **Linearizability.** -/
def Linearizable [DecidableEq Proc] (obj : SeqObject σ Op Ret) (h : List (Event Proc Op Ret)) : Prop :=
  ∃ line : List (Entry Proc Op Ret), obj.Explains line ∧
    ∀ h', h' <+: h → ∃ line', line' <+: line ∧ ∀ p,
      returned p h' <+: (entriesOf p line').map Entry.result ∧
      (entriesOf p line').map Entry.op <+: called p h'

end SeqObject

theorem SeqObject.after_snoc (obj : SeqObject σ Op Ret) (line : List (Entry Proc Op Ret)) (e : Entry Proc Op Ret) :
    obj.after (line ++ [e]) = (obj.apply (obj.after line) e.op).1 := by
  unfold SeqObject.after
  rw [List.foldl_append]
  rfl

theorem SeqObject.Explains.snoc {obj : SeqObject σ Op Ret} {line : List (Entry Proc Op Ret)} {e : Entry Proc Op Ret}
    (h : obj.Explains line) (he : (obj.apply (obj.after line) e.op).2 = e.result) :
    obj.Explains (line ++ [e]) := by
  intro pre e' hpre
  rcases List.prefix_concat_iff.mp hpre with heq | hold
  · obtain ⟨rfl, hlast⟩ := List.append_inj' heq rfl
    obtain rfl := List.singleton_inj.mp hlast
    exact he
  · exact h pre e' hold

/-! ## Runs with their moments of effect -/

/-- A step of a run: a call begins, takes effect, or returns. -/
inductive Label (Proc Op Ret : Type u) where
  | call (p : Proc) (op : Op)
  | commit (e : Entry Proc Op Ret)
  | ret (p : Proc) (r : Ret)

/-- What the callers see of a run. -/
def historyOf (labels : List (Label Proc Op Ret)) : List (Event Proc Op Ret) :=
  labels.filterMap fun
    | .call p op => some (.call p op)
    | .commit _ => none
    | .ret p r => some (.ret p r)

/-- The order in which the calls take effect. -/
def lineOf (labels : List (Label Proc Op Ret)) : List (Entry Proc Op Ret) :=
  labels.filterMap fun
    | .commit e => some e
    | .call _ _ | .ret _ _ => none

/-- Where a process is. -/
inductive Status (Op Ret : Type u) where
  | idle
  | pending (op : Op)
  | served (r : Ret)

/-- The object and the processes. -/
structure Config (σ Proc Op Ret : Type u) where
  state : σ
  status : Proc → Status Op Ret

/-- A process between two labels: its calls, its results and its entries in the line. -/
def Synced (calls : List Op) (results : List Ret) (entries : List (Entry Proc Op Ret)) :
    Status Op Ret → Prop
  | .idle => calls = entries.map Entry.op ∧ results = entries.map Entry.result
  | .pending op => calls = entries.map Entry.op ++ [op] ∧ results = entries.map Entry.result
  | .served r => calls = entries.map Entry.op ∧ results ++ [r] = entries.map Entry.result

theorem Synced.prefixes {calls : List Op} {results : List Ret} {entries : List (Entry Proc Op Ret)}
    {st : Status Op Ret} (h : Synced calls results entries st) :
    results <+: entries.map Entry.result ∧ entries.map Entry.op <+: calls := by
  cases st with
  | idle =>
    rw [h.1, h.2]
    exact ⟨List.prefix_rfl, List.prefix_rfl⟩
  | pending op =>
    rw [h.1, h.2]
    exact ⟨List.prefix_rfl, List.prefix_append _ _⟩
  | served r =>
    rw [h.1, ← h.2]
    exact ⟨List.prefix_append _ _, List.prefix_rfl⟩

variable {S Turn β : Type u}

/-- What the steps of a run put out, one after the other. -/
def emitted (step : S → Turn → S) (out : S → Turn → List β) : S → List Turn → List β
  | _, [] => []
  | s, t :: turns => out s t ++ emitted step out (step s t) turns

theorem historyOf_emitted (step : S → Turn → S) (labels : S → Turn → List (Label Proc Op Ret)) (s : S)
    (turns : List Turn) :
    historyOf (emitted step labels s turns) = emitted step (fun s t => historyOf (labels s t)) s turns := by
  induction turns generalizing s with
  | nil => rfl
  | cons t turns ih =>
    show historyOf (labels s t ++ _) = historyOf (labels s t) ++ _
    rw [← ih]
    exact List.filterMap_append

section Runs

variable [DecidableEq Proc] (obj : SeqObject σ Op Ret)

def SeqObject.start : Config σ Proc Op Ret := ⟨obj.init, fun _ => .idle⟩

/-- One label is in order: the process is where it has to be, and an effect has the object's result. -/
inductive Config.Next (c : Config σ Proc Op Ret) : Label Proc Op Ret → Config σ Proc Op Ret → Prop
  | call {p : Proc} {op : Op} : c.status p = .idle →
      Next c (.call p op) ⟨c.state, Function.update c.status p (.pending op)⟩
  | commit {e : Entry Proc Op Ret} : c.status e.proc = .pending e.op →
      (obj.apply c.state e.op).2 = e.result →
      Next c (.commit e) ⟨(obj.apply c.state e.op).1, Function.update c.status e.proc (.served e.result)⟩
  | ret {p : Proc} {r : Ret} : c.status p = .served r →
      Next c (.ret p r) ⟨c.state, Function.update c.status p .idle⟩

/-- A list of labels that are in order, from one configuration to another. -/
inductive Accepts : Config σ Proc Op Ret → List (Label Proc Op Ret) → Config σ Proc Op Ret → Prop
  | nil {c : Config σ Proc Op Ret} : Accepts c [] c
  | snoc {c c' c'' : Config σ Proc Op Ret} {labels : List (Label Proc Op Ret)}
      {l : Label Proc Op Ret} : Accepts c labels c' → c'.Next obj l c'' → Accepts c (labels ++ [l]) c''

variable {obj}

theorem Accepts.append {c c' c'' : Config σ Proc Op Ret} {a b : List (Label Proc Op Ret)}
    (ha : Accepts obj c a c') (hb : Accepts obj c' b c'') : Accepts obj c (a ++ b) c'' := by
  induction hb with
  | nil =>
    rw [List.append_nil]
    exact ha
  | snoc _ hl ih =>
    rw [← List.append_assoc]
    exact ih.snoc hl

/-- A call that takes effect. -/
theorem Accepts.commit {c : Config σ Proc Op Ret} {e : Entry Proc Op Ret} {s : σ}
    (hst : c.status e.proc = .pending e.op) (happly : obj.apply c.state e.op = (s, e.result)) :
    Accepts obj c [.commit e] ⟨s, Function.update c.status e.proc (.served e.result)⟩ := by
  have hnext : c.Next obj (.commit e) _ := .commit hst (by rw [happly])
  rw [happly] at hnext
  exact Accepts.nil.snoc hnext

/-- A call that takes effect and returns at once. -/
theorem Accepts.commit_ret {c : Config σ Proc Op Ret} {e : Entry Proc Op Ret} {s : σ}
    (hst : c.status e.proc = .pending e.op) (happly : obj.apply c.state e.op = (s, e.result)) :
    Accepts obj c [.commit e, .ret e.proc e.result] ⟨s, Function.update c.status e.proc .idle⟩ := by
  have hret := (Accepts.commit hst happly).snoc (.ret (p := e.proc) (r := e.result) (by simp))
  rw [Function.update_idem] at hret
  exact hret

/-- Every prefix of a run in order is in order. -/
theorem Accepts.of_prefix {c c' : Config σ Proc Op Ret} {labels pre : List (Label Proc Op Ret)}
    (h : Accepts obj c labels c') (hpre : pre <+: labels) : ∃ c₁, Accepts obj c pre c₁ := by
  induction h with
  | nil =>
    rw [List.prefix_nil.mp hpre]
    exact ⟨_, .nil⟩
  | @snoc c' c'' labels l h hl ih =>
    rcases List.prefix_concat_iff.mp hpre with rfl | hold
    · exact ⟨_, h.snoc hl⟩
    · exact ih hold

/-! ## What holds after the labels of a run -/

theorem Synced.own {calls : List Op} {results : List Ret} {entries : List (Entry Proc Op Ret)}
    {status : Proc → Status Op Ret} {q : Proc} {st : Status Op Ret}
    (h : Synced calls results entries st) :
    Synced calls results entries (Function.update status q st q) := by
  rw [Function.update_self]
  exact h

/-- A label that concerns `q` leaves the others in step. -/
theorem Synced.other {calls calls' : List Op} {results results' : List Ret}
    {entries entries' : List (Entry Proc Op Ret)} {status : Proc → Status Op Ret} {p q : Proc}
    {st : Status Op Ret} (h : Synced calls results entries (status p)) (hne : q ≠ p)
    (hcalls : calls' = calls) (hresults : results' = results) (hentries : entries' = entries) :
    Synced calls' results' entries' (Function.update status q st p) := by
  rw [Function.update_of_ne (Ne.symm hne), hcalls, hresults, hentries]
  exact h

/-- **What a run in order keeps**: the object is in the state of its line, explains it, and every
process is in step with it. -/
theorem Accepts.synced {labels : List (Label Proc Op Ret)} {c : Config σ Proc Op Ret}
    (h : Accepts obj obj.start labels c) :
    c.state = obj.after (lineOf labels) ∧ obj.Explains (lineOf labels) ∧
      ∀ p, Synced (called p (historyOf labels)) (returned p (historyOf labels))
        (entriesOf p (lineOf labels)) (c.status p) := by
  induction h with
  | nil =>
    refine ⟨rfl, ?_, fun p => ⟨rfl, rfl⟩⟩
    intro pre e hpre
    rw [show lineOf ([] : List (Label Proc Op Ret)) = [] from rfl, List.prefix_nil] at hpre
    simp at hpre
  | @snoc c' c'' labels l _ hl ih =>
    obtain ⟨hstate, hexplains, hsynced⟩ := ih
    cases hl with
    | @call q op hidle =>
      have hline : lineOf (labels ++ [.call q op]) = lineOf labels := by simp [lineOf]
      rw [hline]
      refine ⟨hstate, hexplains, fun p => ?_⟩
      have hp := hsynced p
      by_cases hpq : q = p
      · subst hpq
        rw [hidle] at hp
        apply Synced.own
        refine ⟨?_, ?_⟩
        · simpa [called, historyOf] using hp.1
        · simpa [returned, historyOf] using hp.2
      · apply hp.other hpq
        · simp [called, historyOf, hpq]
        · simp [returned, historyOf]
        · rfl
    | @commit e hopen hresult =>
      have hhist : historyOf (labels ++ [.commit e]) = historyOf labels := by simp [historyOf]
      have hline : lineOf (labels ++ [.commit e]) = lineOf labels ++ [e] := by simp [lineOf]
      rw [hstate] at hresult
      rw [hhist, hline, SeqObject.after_snoc, ← hstate]
      refine ⟨rfl, hexplains.snoc hresult, fun p => ?_⟩
      have hp := hsynced p
      by_cases hpq : e.proc = p
      · subst hpq
        rw [hopen] at hp
        apply Synced.own
        refine ⟨?_, ?_⟩
        · simpa [entriesOf] using hp.1
        · simpa [entriesOf] using hp.2
      · exact hp.other hpq rfl rfl (by simp [entriesOf, hpq])
    | @ret q r hserved =>
      have hline : lineOf (labels ++ [.ret q r]) = lineOf labels := by simp [lineOf]
      rw [hline]
      refine ⟨hstate, hexplains, fun p => ?_⟩
      have hp := hsynced p
      by_cases hpq : q = p
      · subst hpq
        rw [hserved] at hp
        apply Synced.own
        refine ⟨?_, ?_⟩
        · simpa [called, historyOf] using hp.1
        · simpa [returned, historyOf] using hp.2
      · apply hp.other hpq
        · simp [called, historyOf]
        · simp [returned, historyOf, hpq]
        · rfl

/-- **A run in order has a linearizable history.** -/
theorem linearizable_of_accepted {labels : List (Label Proc Op Ret)} {c : Config σ Proc Op Ret}
    (h : Accepts obj obj.start labels c) : obj.Linearizable (historyOf labels) := by
  refine ⟨lineOf labels, h.synced.2.1, fun h' hpre => ?_⟩
  obtain ⟨pre, hlabels, rfl⟩ := List.prefix_filterMap_iff.mp hpre
  obtain ⟨c₁, hc₁⟩ := h.of_prefix hlabels
  refine ⟨lineOf pre, hlabels.filterMap _, fun p => ?_⟩
  exact (hc₁.synced.2.2 p).prefixes

/-- If every step puts out labels that are in order, and keeps the relation to the object, then so does
every run. -/
theorem foldl_accepted {step : S → Turn → S} {labels : S → Turn → List (Label Proc Op Ret)}
    {R : S → Config σ Proc Op Ret → Prop}
    (hstep : ∀ s c t, R s c → ∃ c', Accepts obj c (labels s t) c' ∧ R (step s t) c') {s : S}
    {c : Config σ Proc Op Ret} (hR : R s c) (turns : List Turn) :
    ∃ c', Accepts obj c (emitted step labels s turns) c' ∧ R (turns.foldl step s) c' := by
  induction turns generalizing s c with
  | nil => exact ⟨c, .nil, hR⟩
  | cons t turns ih =>
    obtain ⟨c₁, hfirst, hR₁⟩ := hstep s c t hR
    obtain ⟨c₂, hrest, hR₂⟩ := ih hR₁
    exact ⟨c₂, hfirst.append hrest, hR₂⟩

end Runs

end MarketDataPipeline.Library.Linearizability
