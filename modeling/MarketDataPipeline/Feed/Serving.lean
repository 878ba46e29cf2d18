/-
# MarketDataPipeline.Feed.Serving — the two threads of the simulator.

`FeedSimulator::run` starts `run_recovery_server` on a thread of its own, sends the session, sets the
stop flag and joins the server thread.  A state of `Simulation` is a place in each of the two loops, and
every system call and every pass of a loop is a step.  What the system calls return is part of the
turn: anybody may connect to the server and send anything.

The sender never waits before `join`, so it gets there (`senderWork`).  From then on the flag is set and
the server leaves at its next test (`serverWork`), unless it does not get there: the counter of the loop
that collects the frames wraps for one value of `end_seq` (`Wedged`).  System calls are taken to return:
a turn of a thread is the call with its result.  What the model leaves out is a client that says
nothing, which blocks `recv` with `MSG_WAITALL`, and one that closes early, at which `send` may raise
SIGPIPE; either can also keep `run` from returning.
-/
import Mathlib.Data.Prod.Lex
import MarketDataPipeline.Feed.Exchange
import MarketDataPipeline.Feed.Sender
import MarketDataPipeline.Library.Fairness

namespace MarketDataPipeline.Feed

open MarketDataPipeline.Library.Fairness
open MarketDataPipeline.Library.Loop
open MarketDataPipeline.Wire

/-! ## The threads -/

inductive SenderPc where
  | opening
  | sending (i : Nat)
  | flushing
  | stopping (code : Nat)
  | joining (code : Nat)
  | returned (code : Nat)
  deriving DecidableEq

inductive ServerPc where
  | opening
  | check
  | select
  | receive
  | collect (req : WireGapRequest) (st : UInt64 × List UInt8)
  | reply (req : WireGapRequest) (payload : List UInt8)
  | exited (code : Nat)

/-- An answered connection: the request, and the bytes that were sent back. -/
structure Reply where
  req : WireGapRequest
  bytes : List UInt8

structure Simulation where
  sender : SenderPc := .opening
  server : ServerPc := .opening
  stop : Bool := false
  out : SenderState := {}
  replies : List Reply := []

/-- What the system calls of the server return. -/
structure ServerCall where
  /-- `socket`, `bind` and `listen` succeed. -/
  opened : Bool := true
  /-- `select` reports a connection and `accept` gets it. -/
  accepted : Bool := false
  /-- What the client sends before it closes. -/
  request : List UInt8 := []
  nowNs : UInt64 := 0

inductive SimTurn where
  | sender (opened : Bool)
  | server (call : ServerCall)

namespace Simulation

section

variable (draws : Nat → SendDraw) (session : List (List UInt8))

def stepSender (s : Simulation) (opened : Bool) : Simulation :=
  match s.sender with
  | .opening => { s with sender := if opened then .sending 0 else .stopping 1 }
  | .sending i =>
    match (numbered session)[i]? with
    | some o => { s with out := s.out.pass draws session.length o, sender := .sending (i + 1) }
    | none => { s with sender := .flushing }
  -- `delayed` is what is left of it
  | .flushing =>
    match s.out.delayed with
    | d :: rest => { s with out := ⟨s.out.sent ++ [d], rest⟩ }
    | [] => { s with sender := .stopping 0 }
  | .stopping code => { s with stop := true, sender := .joining code }
  | .joining code =>
    match s.server with
    | .exited _ => { s with sender := .returned code }
    | _ => s
  | .returned _ => s

def stepServer (s : Simulation) (call : ServerCall) : Simulation :=
  match s.server with
  | .opening => { s with server := if call.opened then .check else .exited 1 }
  | .check => { s with server := if s.stop then .exited 0 else .select }
  | .select => { s with server := if call.accepted then .receive else .check }
  | .receive =>
    match copyOut WireGapRequest.image (call.request.take WireGapRequest.image.size) with
    | some req => { s with server := .collect req (loadBe64 req.startSeq, []) }
    | none => { s with server := .check }
  | .collect req st =>
    match servePass session (loadBe64 req.endSeq) st with
    | .again st' => { s with server := .collect req st' }
    | .done payload => { s with server := .reply req payload }
  | .reply req payload =>
    let bytes := WireGapResponse.image.put (serveHeader req call.nowNs payload) ++ payload
    { s with server := .check, replies := s.replies ++ [⟨req, bytes⟩] }
  | .exited _ => s

def step (s : Simulation) : SimTurn → Simulation
  | .sender opened => s.stepSender draws session opened
  | .server call => s.stepServer session call

end

/-- The state after the first `n` turns. -/
def after (draws : Nat → SendDraw) (session : List (List UInt8)) (schedule : Nat → SimTurn) :
    Nat → Simulation
  | 0 => {}
  | n + 1 => (after draws session schedule n).step draws session (schedule n)

variable {draws : Nat → SendDraw} {session : List (List UInt8)} {s : Simulation}

/-! ## The sender -/

/-- The thread is at `join`, or behind it. -/
def Joining (s : Simulation) : Prop :=
  match s.sender with
  | .joining _ | .returned _ => True
  | _ => False

/-- The steps to `join`, at most. -/
def senderWork (size : Nat) (s : Simulation) : Nat :=
  match s.sender with
  | .opening => 2 * size + s.out.delayed.length + 4
  | .sending i => 2 * (size - i) + s.out.delayed.length + 3
  | .flushing => s.out.delayed.length + 2
  | .stopping _ => 1
  | .joining _ | .returned _ => 0

theorem sendDue_delayed_length (i : Nat) (sent delayed : List Outgoing) :
    (sendDue i sent delayed).delayed.length ≤ delayed.length := by
  induction delayed generalizing sent with
  | nil => exact le_rfl
  | cons d rest ih =>
    unfold sendDue
    split
    · exact (ih _).trans (Nat.le_succ _)
    · exact le_rfl

/-- A pass puts at most one frame aside. -/
theorem pass_delayed_length (size : Nat) (out : SenderState) (o : Outgoing) :
    (out.pass draws size o).delayed.length ≤ out.delayed.length + 1 := by
  unfold SenderState.pass
  split_ifs
  · exact Nat.le_succ _
  · exact (List.length_append ..).le
  · exact (sendDue_delayed_length _ _ _).trans (Nat.le_succ _)

theorem numbered_length (session : List (List UInt8)) : (numbered session).length = session.length :=
  List.length_mapIdx

theorem senderWork_step (opened : Bool) (h : ¬ s.Joining) :
    (s.stepSender draws session opened).senderWork session.length < s.senderWork session.length := by
  unfold senderWork stepSender
  cases hs : s.sender with
  | opening => cases opened <;> simp
  | sending i =>
    dsimp only
    cases ho : (numbered session)[i]? with
    | none =>
      show s.out.delayed.length + 2 < _
      omega
    | some o =>
      have hi : i < session.length := by
        rw [← numbered_length]
        exact (List.getElem?_eq_some_iff.mp ho).1
      have hpass : (s.out.pass draws session.length o).delayed.length ≤ _ :=
        pass_delayed_length session.length s.out o
      show 2 * (session.length - (i + 1)) + (s.out.pass draws session.length o).delayed.length + 3
        < 2 * (session.length - i) + s.out.delayed.length + 3
      omega
  | flushing =>
    dsimp only
    cases hd : s.out.delayed with
    | nil => exact Nat.one_lt_two
    | cons d rest => exact Nat.lt_succ_self _
  | stopping code => exact Nat.zero_lt_one
  | joining code | returned code => exact absurd (by unfold Joining; rw [hs]; trivial) h

/-- `join` is not left again. -/
theorem joining_stepSender (opened : Bool) (h : s.Joining) :
    (s.stepSender draws session opened).Joining := by
  unfold Joining stepSender at *
  cases hs : s.sender with
  | joining code => cases s.server <;> simp [hs]
  | returned code => simp [hs]
  | _ => rw [hs] at h; exact h.elim

@[simp] theorem stepSender_server (opened : Bool) :
    (s.stepSender draws session opened).server = s.server := by
  unfold stepSender
  split <;> first | rfl | (split <;> rfl)

@[simp] theorem stepSender_replies (opened : Bool) :
    (s.stepSender draws session opened).replies = s.replies := by
  unfold stepSender
  split <;> first | rfl | (split <;> rfl)

@[simp] theorem stepServer_sender (call : ServerCall) :
    (s.stepServer session call).sender = s.sender := by
  unfold stepServer
  split <;> first | rfl | (split <;> rfl)

@[simp] theorem stepServer_stop (call : ServerCall) : (s.stepServer session call).stop = s.stop := by
  unfold stepServer
  split <;> first | rfl | (split <;> rfl)

@[simp] theorem stepServer_out (call : ServerCall) : (s.stepServer session call).out = s.out := by
  unfold stepServer
  split <;> first | rfl | (split <;> rfl)

/-! ## The server -/

theorem le_largest (x : UInt64) : x ≤ 18446744073709551615 := by
  rw [UInt64.le_iff_toNat_le]
  exact Nat.le_of_lt_succ x.toNat_lt

/-- The loop that collects the frames has a bound that its counter cannot pass. -/
def Wedged (s : Simulation) : Prop :=
  match s.server with
  | .collect req _ => loadBe64 req.endSeq = 18446744073709551615
  | _ => False

def Exited (s : Simulation) : Prop :=
  match s.server with
  | .exited _ => True
  | _ => False

/-- The steps to the exit, at most, once the flag is set.  A request that is still to be received comes
first in the order: nothing bounds the number of its passes. -/
def serverWork (s : Simulation) : Nat ×ₗ Nat :=
  match s.server with
  | .opening => toLex (1, 2)
  | .select => toLex (1, 1)
  | .receive => toLex (1, 0)
  | .collect req st => toLex (0, (loadBe64 req.endSeq).toNat + 1 - st.1.toNat + 3)
  | .reply _ _ => toLex (0, 2)
  | .check => toLex (0, 1)
  | .exited _ => toLex (0, 0)

theorem toLex_lt {a b c d : Nat} (h : a < c ∨ a = c ∧ b < d) : toLex (a, b) < toLex (c, d) :=
  Prod.Lex.toLex_lt_toLex.mpr h

theorem serverWork_step (call : ServerCall) (hstop : s.stop = true) (hexit : ¬ s.Exited)
    (hwedged : ¬ s.Wedged) : (s.stepServer session call).serverWork < s.serverWork := by
  unfold serverWork stepServer
  cases hs : s.server with
  | opening =>
    dsimp only
    cases call.opened <;> exact toLex_lt (Or.inl Nat.zero_lt_one)
  | check =>
    dsimp only
    rw [hstop]
    exact toLex_lt (Or.inr ⟨rfl, Nat.zero_lt_one⟩)
  | select =>
    dsimp only
    cases call.accepted
    · exact toLex_lt (Or.inl Nat.zero_lt_one)
    · exact toLex_lt (Or.inr ⟨rfl, Nat.zero_lt_one⟩)
  | receive =>
    dsimp only
    cases copyOut WireGapRequest.image (call.request.take WireGapRequest.image.size) with
    | none => exact toLex_lt (Or.inl Nat.zero_lt_one)
    | some req => exact toLex_lt (Or.inl Nat.zero_lt_one)
  | collect req st =>
    dsimp only
    have hend : loadBe64 req.endSeq ≠ 18446744073709551615 := by
      intro hmax
      exact hwedged (by unfold Wedged; rw [hs]; exact hmax)
    cases hpass : servePass session (loadBe64 req.endSeq) st with
    | again st' =>
      have hvar := servePass_variant session hend st st' hpass
      exact toLex_lt (Or.inr ⟨rfl, Nat.add_lt_add_right hvar 3⟩)
    | done payload => exact toLex_lt (Or.inr ⟨rfl, by omega⟩)
  | reply req payload => exact toLex_lt (Or.inr ⟨rfl, Nat.one_lt_two⟩)
  | exited code => exact absurd (by unfold Exited; rw [hs]; trivial) hexit

theorem exited_step (h : s.Exited) (turn : SimTurn) : (s.step draws session turn).Exited := by
  unfold Exited at *
  cases turn with
  | sender opened =>
    simp only [step, stepSender_server]
    exact h
  | server call =>
    simp only [step, stepServer]
    cases hs : s.server with
    | exited code => rw [hs]; trivial
    | _ => rw [hs] at h; exact h.elim

/-- **A wedged server stays wedged.** -/
theorem wedged_step (h : s.Wedged) (turn : SimTurn) : (s.step draws session turn).Wedged := by
  unfold Wedged at *
  cases turn with
  | sender opened =>
    simp only [step, stepSender_server]
    exact h
  | server call =>
    simp only [step, stepServer]
    cases hs : s.server with
    | collect req st =>
      rw [hs] at h
      have hle : st.1 ≤ loadBe64 req.endSeq := (le_largest st.1).trans_eq h.symm
      dsimp only
      rw [servePass_again hle]
      exact h
    | _ => rw [hs] at h; exact h.elim

/-! ## What is sent on both channels -/

/-- The frames that a request asks for. -/
def wanted (session : List (List UInt8)) (req : WireGapRequest) : List UInt8 :=
  (requested session (loadBe64 req.startSeq).toNat (loadBe64 req.endSeq).toNat).flatten

/-- The datagrams sent so far are those of the send loop. -/
def Sending (draws : Nat → SendDraw) (session : List (List UInt8)) (s : Simulation) : Prop :=
  match s.sender with
  | .opening => s.out = {}
  | .sending i => s.out = ((numbered session).take i).foldl (SenderState.pass draws session.length) {}
  | .flushing => s.out.sent ++ s.out.delayed = sendAll draws session
  | .stopping code | .joining code | .returned code =>
    s.out.sent = if code = 0 then sendAll draws session else []

/-- The payload built so far is a part of what is wanted. -/
def Collecting (session : List (List UInt8)) (s : Simulation) : Prop :=
  match s.server with
  | .collect req st => loadBe64 req.endSeq ≠ 18446744073709551615 →
      st.2 ++ (requested session st.1.toNat (loadBe64 req.endSeq).toNat).flatten = wanted session req
  | .reply req payload => payload = wanted session req
  | _ => True

/-- A reply is a header and the frames that were asked for. -/
def Answers (session : List (List UInt8)) (r : Reply) : Prop :=
  ∃ nowNs, r.bytes = WireGapResponse.image.put (serveHeader r.req nowNs (wanted session r.req))
    ++ wanted session r.req

theorem sending_stepSender (opened : Bool) (h : s.Sending draws session) :
    (s.stepSender draws session opened).Sending draws session := by
  unfold Sending at h
  unfold Sending stepSender
  cases hs : s.sender with
  | opening =>
    rw [hs] at h
    cases opened
    · exact congrArg SenderState.sent h
    · exact h
  | sending i =>
    rw [hs] at h
    dsimp only at h ⊢
    cases ho : (numbered session)[i]? with
    | some o =>
      show s.out.pass draws session.length o = _
      obtain ⟨hi, hget⟩ := List.getElem?_eq_some_iff.mp ho
      rw [List.take_succ_eq_append_getElem hi, List.foldl_append, ← h, hget]
      rfl
    | none =>
      have hall := List.getElem?_eq_none_iff.mp ho
      rw [List.take_of_length_le hall] at h
      show s.out.sent ++ s.out.delayed = sendAll draws session
      rw [h]
      rfl
  | flushing =>
    rw [hs] at h
    dsimp only at h ⊢
    cases hd : s.out.delayed with
    | nil =>
      rw [hd, List.append_nil] at h
      exact h
    | cons d rest =>
      rw [hd] at h
      show s.out.sent ++ [d] ++ rest = sendAll draws session
      rw [List.append_assoc]
      exact h
  | stopping code =>
    rw [hs] at h
    exact h
  | joining code =>
    rw [hs] at h
    cases s.server <;> simpa [hs] using h
  | returned code =>
    rw [hs] at h
    simpa [hs] using h

theorem collecting_stepServer (call : ServerCall) (h : s.Collecting session) :
    (s.stepServer session call).Collecting session := by
  unfold Collecting at h
  unfold Collecting stepServer
  cases hs : s.server with
  | receive =>
    dsimp only
    cases copyOut WireGapRequest.image (call.request.take WireGapRequest.image.size) with
    | none => trivial
    | some req => exact fun _ => rfl
  | collect req st =>
    rw [hs] at h
    dsimp only at h ⊢
    by_cases hle : st.1 ≤ loadBe64 req.endSeq
    · rw [servePass_again hle]
      intro hend
      rw [← h hend, requested_step (UInt64.le_iff_toNat_le.mp hle), toNat_succ_of_le hle hend,
        List.flatten_append, List.append_assoc]
    · rw [servePass_done hle]
      have hend : loadBe64 req.endSeq ≠ 18446744073709551615 :=
        fun hmax => hle (hmax ▸ le_largest st.1)
      rw [UInt64.le_iff_toNat_le, Nat.not_le] at hle
      show st.2 = wanted session req
      rw [← h hend, requested_empty hle, List.flatten_nil, List.append_nil]
  | opening => cases call.opened <;> trivial
  | check => cases s.stop <;> trivial
  | select => cases call.accepted <;> trivial
  | reply req payload => trivial
  | exited code => simp [hs]

theorem replies_stepServer (call : ServerCall) (h : s.Collecting session)
    (hreplies : ∀ r ∈ s.replies, Answers session r) :
    ∀ r ∈ (s.stepServer session call).replies, Answers session r := by
  cases hs : s.server with
  | reply req payload =>
    unfold Collecting at h
    rw [hs] at h
    simp only [stepServer, hs]
    intro r hr
    rcases List.mem_append.mp hr with hr | hr
    · exact hreplies r hr
    · rw [List.mem_singleton] at hr
      subst hr
      refine ⟨call.nowNs, ?_⟩
      show _ ++ payload = _
      rw [show payload = wanted session req from h]
  | receive | collect req st =>
    simp only [stepServer, hs]
    split <;> exact hreplies
  | opening | check | select | exited code =>
    simp only [stepServer, hs]
    exact hreplies

/-- **The invariant of the two threads.** -/
structure Sound (draws : Nat → SendDraw) (session : List (List UInt8)) (s : Simulation) : Prop where
  sending : s.Sending draws session
  collecting : s.Collecting session
  replies : ∀ r ∈ s.replies, Answers session r
  stopped : s.Joining → s.stop = true
  joined : ∀ code, s.sender = .returned code → s.Exited

theorem sound_init : Sound draws session {} where
  sending := rfl
  collecting := trivial
  replies := fun r hr => (by cases hr)
  stopped := fun h => h.elim
  joined := fun code h => (by cases h)

theorem stopped_stepSender (opened : Bool) (h : s.Joining → s.stop = true) :
    (s.stepSender draws session opened).Joining → (s.stepSender draws session opened).stop = true := by
  unfold Joining at h ⊢
  unfold stepSender
  cases hs : s.sender with
  | opening => cases opened <;> exact False.elim
  | sending i =>
    dsimp only
    cases (numbered session)[i]? <;> exact False.elim
  | flushing =>
    dsimp only
    cases s.out.delayed
    · exact False.elim
    · simp
  | stopping code => exact fun _ => rfl
  | joining code =>
    rw [hs] at h
    dsimp only
    cases s.server <;> exact fun _ => h trivial
  | returned code =>
    rw [hs] at h
    exact fun _ => h trivial

theorem joined_stepSender (opened : Bool) (h : ∀ code, s.sender = .returned code → s.Exited)
    {code : Nat} (hret : (s.stepSender draws session opened).sender = .returned code) : s.Exited := by
  unfold stepSender at hret
  cases hs : s.sender with
  | opening => cases opened <;> simp [hs] at hret
  | sending i =>
    simp only [hs] at hret
    cases ho : (numbered session)[i]? <;> simp [ho] at hret
  | flushing =>
    simp only [hs] at hret
    cases hd : s.out.delayed <;> simp [hd] at hret
  | stopping code => simp [hs] at hret
  | joining code =>
    simp only [hs] at hret
    unfold Exited
    cases hx : s.server <;> simp [hx, hs] at hret ⊢
  | returned code => exact h code hs

theorem Sound.step (h : s.Sound draws session) (turn : SimTurn) :
    (s.step draws session turn).Sound draws session := by
  cases turn with
  | sender opened =>
    refine ⟨sending_stepSender opened h.sending, ?_, ?_, stopped_stepSender opened h.stopped, ?_⟩
    · show Collecting session (s.stepSender draws session opened)
      unfold Collecting
      rw [stepSender_server]
      exact h.collecting
    · show ∀ r ∈ (s.stepSender draws session opened).replies, _
      rw [stepSender_replies]
      exact h.replies
    · intro code hret
      exact exited_step (joined_stepSender opened h.joined hret) (.sender opened)
  | server call =>
    refine ⟨?_, collecting_stepServer call h.collecting,
      replies_stepServer call h.collecting h.replies, ?_, ?_⟩
    · show Sending draws session (s.stepServer session call)
      unfold Sending
      rw [stepServer_sender, stepServer_out]
      exact h.sending
    · show Joining (s.stepServer session call) → (s.stepServer session call).stop = true
      unfold Joining
      rw [stepServer_sender, stepServer_stop]
      exact h.stopped
    · intro code hret
      exact exited_step (h.joined code ((stepServer_sender call).symm.trans hret)) (.server call)

/-! ## Whole runs -/

section Runs

variable {schedule : Nat → SimTurn}

theorem after_sound (schedule : Nat → SimTurn) (n : Nat) :
    (after draws session schedule n).Sound draws session := by
  induction n with
  | zero => exact sound_init
  | succ n ih => exact ih.step (schedule n)

/-- Both threads are scheduled again and again. -/
structure Fair (schedule : Nat → SimTurn) : Prop where
  sender : Recurs fun n => ∃ opened, schedule n = .sender opened
  server : Recurs fun n => ∃ call, schedule n = .server call

/-- The sender gets to `join`. -/
theorem exists_joining (hfair : Fair schedule) :
    ∃ n, 0 ≤ n ∧ (after draws session schedule n).Joining := by
  have hown : ∀ m opened, schedule m = .sender opened → ¬ (after draws session schedule m).Joining →
      (after draws session schedule (m + 1)).senderWork session.length
        < (after draws session schedule m).senderWork session.length := by
    intro m opened hturn hnot
    show ((after draws session schedule m).step draws session (schedule m)).senderWork _ < _
    rw [hturn]
    exact senderWork_step opened hnot
  refine reaches (fun m => (after draws session schedule m).senderWork session.length)
    hfair.sender ?_ ?_
  · intro m _ hnot
    refine Or.inr ?_
    cases hturn : schedule m with
    | sender opened => exact (hown m opened hturn hnot).le
    | server call =>
      show ((after draws session schedule m).step draws session (schedule m)).senderWork _ ≤ _
      rw [hturn]
      unfold senderWork
      simp only [step, stepServer_sender, stepServer_out]
      exact le_rfl
  · rintro m _ ⟨opened, hturn⟩ hnot
    exact Or.inr (hown m opened hturn hnot)

theorem joining_step (h : s.Joining) (turn : SimTurn) : (s.step draws session turn).Joining := by
  cases turn with
  | sender opened => exact joining_stepSender opened h
  | server call =>
    show Joining (s.stepServer session call)
    unfold Joining
    rw [stepServer_sender]
    exact h

/-- Then the server exits, unless it is wedged. -/
theorem exists_exited (hfair : Fair schedule) {n : Nat} (hjoin : (after draws session schedule n).Joining)
    (hwedged : ∀ m, ¬ (after draws session schedule m).Wedged) :
    ∃ m, n ≤ m ∧ (after draws session schedule m).Exited := by
  have hstop : ∀ m, n ≤ m → (after draws session schedule m).stop = true := by
    intro m hm
    exact (after_sound schedule m).stopped (persists hjoin (fun m _ h => joining_step h (schedule m)) m hm)
  have hown : ∀ m call, n ≤ m → schedule m = .server call →
      ¬ (after draws session schedule m).Exited →
      (after draws session schedule (m + 1)).serverWork < (after draws session schedule m).serverWork := by
    intro m call hm hturn hnot
    show ((after draws session schedule m).step draws session (schedule m)).serverWork < _
    rw [hturn]
    exact serverWork_step call (hstop m hm) hnot (hwedged m)
  refine reaches (fun m => (after draws session schedule m).serverWork) hfair.server ?_ ?_
  · intro m hm hnot
    refine Or.inr ?_
    cases hturn : schedule m with
    | server call => exact (hown m call hm hturn hnot).le
    | sender opened =>
      show ((after draws session schedule m).step draws session (schedule m)).serverWork ≤ _
      rw [hturn]
      unfold serverWork
      simp only [step, stepSender_server]
      exact le_rfl
  · rintro m hm ⟨call, hturn⟩ hnot
    exact Or.inr (hown m call hm hturn hnot)

/-- With the server gone, `join` returns. -/
theorem returned_stepSender (opened : Bool) (hjoin : s.Joining) (hexit : s.Exited) :
    ∃ code, (s.stepSender draws session opened).sender = .returned code := by
  unfold Joining at hjoin
  unfold Exited at hexit
  unfold stepSender
  cases hs : s.sender with
  | joining code =>
    cases hx : s.server with
    | exited c => exact ⟨code, rfl⟩
    | _ => rw [hx] at hexit; exact hexit.elim
  | returned code => exact ⟨code, hs⟩
  | _ => rw [hs] at hjoin; exact hjoin.elim

/-- A server that has been wedged once is never gone. -/
theorem not_exited_of_wedged {n m : Nat} (hw : (after draws session schedule n).Wedged) :
    ¬ (after draws session schedule m).Exited := by
  intro hexit
  have hw' := persists hw (fun m _ h => wedged_step h (schedule m)) (max n m) (le_max_left n m)
  have hexit' := persists hexit (fun m _ h => exited_step h (schedule m)) (max n m) (le_max_right n m)
  unfold Wedged at hw'
  unfold Exited at hexit'
  cases hs : (after draws session schedule (max n m)).server with
  | collect req st => rw [hs] at hexit'; exact hexit'
  | _ => rw [hs] at hw'; exact hw'

end Runs

end Simulation

/-- **`FeedSimulator::run` returns unless a client wedges the server.** In every infinite run in which
both threads are scheduled again and again, so that every system call returns, whoever connects and
whatever is sent to the server: `run` returns exactly if the server never takes up a whole request with
`end_seq` 2^64 - 1.  When it returns 0 the server thread is gone and the datagrams sent are those of the
whole session; and in every state all replies have been a header and exactly the frames asked for. -/
theorem simulator_returns_iff (draws : Nat → SendDraw) (session : List (List UInt8))
    (schedule : Nat → SimTurn) (hfair : Simulation.Fair schedule) :
    ((∃ n code, (Simulation.after draws session schedule n).sender = .returned code) ↔
      ∀ n, ¬ (Simulation.after draws session schedule n).Wedged) ∧
    (∀ n, (Simulation.after draws session schedule n).sender = .returned 0 →
      (Simulation.after draws session schedule n).Exited ∧
      (Simulation.after draws session schedule n).out.sent = sendAll draws session) ∧
    ∀ n, ∀ r ∈ (Simulation.after draws session schedule n).replies, Simulation.Answers session r := by
  refine ⟨⟨?_, ?_⟩, ?_, fun n => (Simulation.after_sound schedule n).replies⟩
  · rintro ⟨m, code, hret⟩ n hw
    exact Simulation.not_exited_of_wedged hw ((Simulation.after_sound schedule m).joined code hret)
  · intro hwedged
    obtain ⟨n, -, hjoin⟩ : ∃ n, 0 ≤ n ∧ (Simulation.after draws session schedule n).Joining :=
      Simulation.exists_joining hfair
    obtain ⟨m, hm, hexit⟩ := Simulation.exists_exited hfair hjoin hwedged
    obtain ⟨k, hk, opened, hturn⟩ := hfair.sender m
    have hjoin' := persists hjoin (fun m _ h => Simulation.joining_step h (schedule m)) k (hm.trans hk)
    have hexit' := persists hexit (fun m _ h => Simulation.exited_step h (schedule m)) k hk
    obtain ⟨code, hret⟩ : ∃ code, ((Simulation.after draws session schedule k).stepSender draws session
        opened).sender = .returned code := Simulation.returned_stepSender opened hjoin' hexit'
    refine ⟨k + 1, code, ?_⟩
    show ((Simulation.after draws session schedule k).step draws session (schedule k)).sender = _
    rw [hturn]
    exact hret
  · intro n hret
    have h : (Simulation.after draws session schedule n).Sound draws session :=
      Simulation.after_sound schedule n
    have hsent := h.sending
    unfold Simulation.Sending at hsent
    rw [hret] at hsent
    exact ⟨h.joined 0 hret, hsent⟩

/-- A client that asks for everything from frame 1 on, as soon as the server accepts. -/
def openEndedClient (n : Nat) : SimTurn :=
  if n % 2 = 0 then .sender true
  else .server { accepted := true, request := WireGapRequest.image.put openEndedRequest }

theorem simulator_returns_iff_wedged :
    ¬ ∃ n code, (Simulation.after (fun _ => {}) oneHeartbeat openEndedClient n).sender
      = .returned code := by
  have hfair : Simulation.Fair openEndedClient := by
    refine ⟨fun n => ⟨2 * n, by omega, true, ?_⟩, fun n => ⟨2 * n + 1, by omega, ?_⟩⟩
    · simp [openEndedClient]
    · exact ⟨_, by simp [openEndedClient]; rfl⟩
  rw [(simulator_returns_iff (fun _ => {}) oneHeartbeat openEndedClient hfair).1]
  intro hnever
  apply hnever 8
  show loadBe64 _ = 18446744073709551615
  decide +kernel

end MarketDataPipeline.Feed
