/-
# MarketDataPipeline.Feed.Sender — the send loop of the simulator.

`FeedSimulator::run` sends a session as datagrams and makes the feed hostile on purpose: a frame may be
lost, and a frame may be put aside and sent later.  `SenderState.pass` is the body of its loop, `sendAll`
the loop and the flush behind it.  The random engine is not modelled: `SendDraw` holds the outcome of
the two tests of a pass, and everything here is for all outcomes.

The log of what was sent carries the index of every frame.  Split into the frames that were put aside
and the others, it is in session order on both halves (`Sent`), and that gives the rest: nothing but
the lost frames is missing and nothing is sent twice.
-/
import Mathlib.Data.List.Basic

namespace MarketDataPipeline.Feed

/-! ## The loop -/

/-- A frame with its place in the session, as `delayed` holds it. -/
structure Outgoing where
  index : Nat
  frame : List UInt8
  deriving DecidableEq

/-- The two tests of a pass: `rate > 0.0 && unit(rng) < rate`, for the loss rate and for the reorder
rate.  The second is not drawn for a lost frame. -/
structure SendDraw where
  lost : Bool := false
  reordered : Bool := false

structure SenderState where
  sent : List Outgoing := []
  delayed : List Outgoing := []

/-- The `while` loop of pass `i`: from the front of `delayed`, what is two frames late or more. -/
def sendDue (i : Nat) : List Outgoing → List Outgoing → SenderState
  | sent, [] => ⟨sent, []⟩
  | sent, d :: rest =>
    if d.index + 2 ≤ i then sendDue i (sent ++ [d]) rest else ⟨sent, d :: rest⟩

section

variable (draws : Nat → SendDraw) (size : Nat)

/-- The loss draw of a frame did not hit. -/
def kept (o : Outgoing) : Bool := !(draws o.index).lost

/-- The frame is chosen for delay; the last frame of the session never is. -/
def chosen (o : Outgoing) : Bool := (draws o.index).reordered && decide (o.index + 1 < size)

def SenderState.pass (s : SenderState) (o : Outgoing) : SenderState :=
  if (draws o.index).lost then s
  else if chosen draws size o then { s with delayed := s.delayed ++ [o] }
  -- only a pass that sends looks at the delayed frames
  else sendDue o.index (s.sent ++ [o]) s.delayed

end

/-- The frames of a session with their indices. -/
def numbered (session : List (List UInt8)) : List Outgoing := session.mapIdx Outgoing.mk

/-- The loop over the session. -/
def sendLoop (draws : Nat → SendDraw) (session : List (List UInt8)) : SenderState :=
  (numbered session).foldl (SenderState.pass draws session.length) {}

/-- Everything that is sent: what the loop sends, then what is left in `delayed`. -/
def sendAll (draws : Nat → SendDraw) (session : List (List UInt8)) : List Outgoing :=
  (sendLoop draws session).sent ++ (sendLoop draws session).delayed

/-- The datagrams on the wire. -/
def datagrams (draws : Nat → SendDraw) (session : List (List UInt8)) : List (List UInt8) :=
  (sendAll draws session).map Outgoing.frame

/-! ## What a pass keeps -/

section

variable {draws : Nat → SendDraw} {size : Nat}

/-- **The state after the frames `pre`.** -/
structure Sent (draws : Nat → SendDraw) (size : Nat) (pre : List Outgoing) (s : SenderState) :
    Prop where
  /-- The frames that were not chosen are sent, in order. -/
  direct : s.sent.filter (fun o => !chosen draws size o)
    = pre.filter fun o => kept draws o && !chosen draws size o
  /-- The chosen ones are sent or waiting, in order. -/
  queue : s.sent.filter (chosen draws size) ++ s.delayed
    = pre.filter fun o => kept draws o && chosen draws size o
  /-- A chosen frame was sent behind one that is two places later in the session. -/
  late : ∀ a d, a ++ [d] <+: s.sent → chosen draws size d = true →
    ∃ e ∈ a, d.index + 2 ≤ e.index

theorem sent_empty : Sent draws size [] {} where
  direct := rfl
  queue := rfl
  late := by
    intro a d hpre
    rw [List.prefix_nil] at hpre
    simp at hpre

namespace Sent

variable {pre : List Outgoing} {s : SenderState} {o : Outgoing}

theorem chosen_of_delayed (h : Sent draws size pre s) {d : Outgoing} (hd : d ∈ s.delayed) :
    chosen draws size d = true := by
  have hmem : d ∈ pre.filter fun o => kept draws o && chosen draws size o := by
    rw [← h.queue]
    exact List.mem_append_right _ hd
  exact (Bool.and_eq_true_iff.mp (List.mem_filter.mp hmem).2).2

/-- A lost frame. -/
theorem lose (h : Sent draws size pre s) (hlost : kept draws o = false) :
    Sent draws size (pre ++ [o]) s where
  direct := by simp [h.direct, hlost]
  queue := by simp [h.queue, hlost]
  late := h.late

/-- A frame that is put aside. -/
theorem putAside (h : Sent draws size pre s) (hkept : kept draws o = true)
    (hchosen : chosen draws size o = true) :
    Sent draws size (pre ++ [o]) { s with delayed := s.delayed ++ [o] } where
  direct := by simp [h.direct, hchosen]
  queue := by simp [← h.queue, hkept, hchosen]
  late := h.late

/-- The last element of a prefix is the new one, or the prefix was there before. -/
theorem late_snoc (h : ∀ a d, a ++ [d] <+: s.sent → chosen draws size d = true →
      ∃ e ∈ a, d.index + 2 ≤ e.index)
    (ho : chosen draws size o = true → ∃ e ∈ s.sent, o.index + 2 ≤ e.index) :
    ∀ a d, a ++ [d] <+: s.sent ++ [o] → chosen draws size d = true →
      ∃ e ∈ a, d.index + 2 ≤ e.index := by
  intro a d hpre hd
  rcases List.prefix_concat_iff.mp hpre with heq | hold
  · obtain ⟨rfl, hlast⟩ := List.append_inj' heq rfl
    obtain rfl := List.singleton_inj.mp hlast
    exact ho hd
  · exact h a d hold hd

/-- A frame that is sent in its turn. -/
theorem send (h : Sent draws size pre s) (hkept : kept draws o = true)
    (hchosen : chosen draws size o = false) :
    Sent draws size (pre ++ [o]) { s with sent := s.sent ++ [o] } where
  direct := by simp [h.direct, hkept, hchosen]
  queue := by simp [← h.queue, hchosen]
  late := late_snoc h.late fun htrue => absurd htrue (by simp [hchosen])

/-- A frame that leaves the front of `delayed`. -/
theorem release {sent rest : List Outgoing} {d : Outgoing}
    (h : Sent draws size pre ⟨sent, d :: rest⟩) (hdue : ∃ e ∈ sent, d.index + 2 ≤ e.index) :
    Sent draws size pre ⟨sent ++ [d], rest⟩ := by
  have hd : chosen draws size d = true := h.chosen_of_delayed List.mem_cons_self
  refine ⟨?_, ?_, late_snoc h.late fun _ => hdue⟩
  · simp [← h.direct, hd]
  · simp [← h.queue, hd]

/-- The `while` loop behind a frame that was just sent. -/
theorem sendDue {sent delayed : List Outgoing} (h : Sent draws size pre ⟨sent, delayed⟩)
    (ho : o ∈ sent) : Sent draws size pre (Feed.sendDue o.index sent delayed) := by
  induction delayed generalizing sent with
  | nil => exact h
  | cons d rest ih =>
    unfold Feed.sendDue
    split_ifs with hdue
    · exact ih (h.release ⟨o, ho, hdue⟩) (List.mem_append_left _ ho)
    · exact h

/-- **One pass of the loop.** -/
theorem pass (h : Sent draws size pre s) (o : Outgoing) :
    Sent draws size (pre ++ [o]) (s.pass draws size o) := by
  unfold SenderState.pass
  by_cases hlost : (draws o.index).lost = true
  · rw [if_pos hlost]
    exact h.lose (by simp [kept, hlost])
  · have hkept : kept draws o = true := by simp [kept, hlost]
    rw [if_neg hlost]
    by_cases hchosen : chosen draws size o = true
    · rw [if_pos hchosen]
      exact h.putAside hkept hchosen
    · rw [if_neg hchosen]
      exact (h.send hkept (Bool.not_eq_true _ ▸ hchosen)).sendDue (by simp)

/-- The whole loop. -/
theorem foldl (h : Sent draws size pre s) (rest : List Outgoing) :
    Sent draws size (pre ++ rest) (rest.foldl (SenderState.pass draws size) s) := by
  induction rest generalizing pre s with
  | nil => simpa using h
  | cons o rest ih => simpa using ih (h.pass o)

end Sent

end

/-! ## The whole run -/

variable (draws : Nat → SendDraw) (session : List (List UInt8))

theorem sendLoop_sent : Sent draws session.length (numbered session) (sendLoop draws session) :=
  sent_empty.foldl (numbered session)

theorem numbered_index : (numbered session).map Outgoing.index = List.range session.length := by
  apply List.ext_getElem
  · simp [numbered]
  · intro i h1 h2
    simp [numbered]

/-- The frames that were not chosen keep their order in the log. -/
theorem sendAll_direct :
    (sendAll draws session).filter (fun o => !chosen draws session.length o)
      = (numbered session).filter fun o => kept draws o && !chosen draws session.length o := by
  have h := sendLoop_sent draws session
  have hnone : (sendLoop draws session).delayed.filter (fun o => !chosen draws session.length o)
      = [] := by
    rw [List.filter_eq_nil_iff]
    intro d hd
    simp [h.chosen_of_delayed hd]
  unfold sendAll
  rw [List.filter_append, hnone, List.append_nil]
  exact h.direct

/-- So do the chosen ones. -/
theorem sendAll_chosen :
    (sendAll draws session).filter (chosen draws session.length)
      = (numbered session).filter fun o => kept draws o && chosen draws session.length o := by
  have h := sendLoop_sent draws session
  have hall : (sendLoop draws session).delayed.filter (chosen draws session.length)
      = (sendLoop draws session).delayed :=
    List.filter_eq_self.mpr fun d hd => h.chosen_of_delayed hd
  unfold sendAll
  rw [List.filter_append, hall]
  exact h.queue

theorem sendAll_perm : (sendAll draws session).Perm ((numbered session).filter (kept draws)) := by
  have hsplit := List.filter_append_perm (chosen draws session.length) (sendAll draws session)
  have hkept := List.filter_append_perm (chosen draws session.length)
    ((numbered session).filter (kept draws))
  rw [sendAll_chosen, sendAll_direct] at hsplit
  rw [List.filter_filter, List.filter_filter] at hkept
  refine hsplit.symm.trans ?_
  simpa only [Bool.and_comm] using hkept

/-- A chosen frame goes out behind one that is two places later, or behind everything that the loop
has sent. -/
theorem sendAll_late {a : List Outgoing} {d : Outgoing} (hpre : a ++ [d] <+: sendAll draws session)
    (hd : chosen draws session.length d = true) :
    (∃ e ∈ a, d.index + 2 ≤ e.index) ∨ (sendLoop draws session).sent <+: a := by
  have hlate := (sendLoop_sent draws session).late a d
  have hloop : (sendLoop draws session).sent <+: sendAll draws session := List.prefix_append _ _
  rcases List.prefix_or_prefix_of_prefix hpre hloop with hin | hbehind
  · exact Or.inl (hlate hin hd)
  · rcases List.prefix_concat_iff.mp hbehind with heq | hbehind
    · exact Or.inl (hlate (heq ▸ List.prefix_refl _) hd)
    · exact Or.inr hbehind

/-- **The sender loses only what it rolls to lose.** The datagrams are the frames whose loss draw did not
hit, each of them sent once; those that are not chosen for delay go out in session order, the chosen
ones in session order among themselves, and each of these behind a frame at least two places later in
the session or behind everything the loop has sent. -/
theorem sendAll_spec :
    (datagrams draws session).Perm (((numbered session).filter (kept draws)).map Outgoing.frame) ∧
      (sendAll draws session).Perm ((numbered session).filter (kept draws)) ∧
      ((sendAll draws session).map Outgoing.index).Nodup ∧
      (sendAll draws session).filter (fun o => !chosen draws session.length o)
        = (numbered session).filter (fun o => kept draws o && !chosen draws session.length o) ∧
      (sendAll draws session).filter (chosen draws session.length)
        = (numbered session).filter (fun o => kept draws o && chosen draws session.length o) ∧
      ∀ a d, a ++ [d] <+: sendAll draws session → chosen draws session.length d = true →
        (∃ e ∈ a, d.index + 2 ≤ e.index) ∨ (sendLoop draws session).sent <+: a := by
  have hperm := sendAll_perm draws session
  refine ⟨hperm.map _, hperm, ?_, sendAll_direct draws session, sendAll_chosen draws session,
    fun _ _ => sendAll_late draws session⟩
  -- the indices of the session are distinct, and the filter only leaves some out
  have hsub : ((numbered session).filter (kept draws)).map Outgoing.index
      |>.Sublist (List.range session.length) := by
    rw [← numbered_index]
    exact List.filter_sublist.map _
  exact (hperm.map Outgoing.index).nodup_iff.mpr (List.nodup_range.sublist hsub)

-- frame 0 is put aside, frame 1 is lost, and frame 2 brings frame 0 with it
example : datagrams (fun i => { lost := i == 1, reordered := i == 0 }) [[10], [11], [12], [13]]
    = [[12], [10], [13]] := by decide

end MarketDataPipeline.Feed
