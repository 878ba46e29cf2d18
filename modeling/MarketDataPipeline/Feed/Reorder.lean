/-
# MarketDataPipeline.Feed.Reorder — a feed that delays but does not lose.

The window of the tracker makes up for datagrams in the wrong order without the recovery channel.  If a
number never arrives before one that is 65 or more below it (`Displaced`), nothing that arrived is
evicted (`Keeps`): what is missing when the run ends did not arrive.  The attempts to recover do no
harm on the way, however they end, because they bring frames of the pending gap only.

The sender of the simulator keeps to that bound as long as it does not put aside 63 frames in a row
(`sendAll_paced`): a frame that it sends in its turn takes along what waits, up to the one before it.
-/
import MarketDataPipeline.Feed.Lossy

namespace MarketDataPipeline.Feed

open MarketDataPipeline.Library.Framing
open MarketDataPipeline.Wire
open MarketDataPipeline.Sequence

/-! ## Nothing that arrived is evicted -/

theorem gapOk_mono {m n : Nat} {t : SequenceTracker} (h : t.GapOk m) (hle : m ≤ n) : t.GapOk n := by
  intro hpend
  obtain ⟨hstart, hend, hm⟩ := h hpend
  exact ⟨hstart, hend, hm.trans hle⟩

namespace FeedHandler

/-- The numbers in `arrived` have been delivered or are in the window, and neither the window nor the
pending gap reaches further than 64 beyond `next_expected`. -/
structure Keeps (S : Session) (arrived : Nat → Prop) (h : FeedHandler) : Prop where
  follows : h.Follows S
  near : h.tracker.Near
  reach : h.tracker.GapOk (h.tracker.stats.nextExpected.toNat + 64)
  held : ∀ s, arrived s → Held s h.tracker

variable {S : Session} {h : FeedHandler} {arrived : Nat → Prop}

theorem keeps_start (S : Session) : Keeps S (fun _ => False) {} where
  follows := follows_start S
  near := by
    intro i hi
    cases hi
  reach := fun hpend => absurd rfl hpend
  held := fun _ hs => hs.elim

/-- A frame at most 64 ahead evicts nothing. -/
theorem Keeps.held_push (hk : h.Keeps S arrived) (hn : S.frames.length < 2 ^ 64 - 1)
    {f : List UInt8} (hmem : f ∈ S.frames)
    (hahead : (frameSeq f).toNat ≤ h.tracker.stats.nextExpected.toNat + 64) {s : Nat}
    (hs : Held s h.tracker) : Held s (h.tracker.push f).1 := by
  have hsound := hk.follows.sound
  have hmono := hsound.push_mono Session.seq_le hn hmem
  rcases hs with hlt | ⟨i, hi, hseq⟩
  · exact Or.inl (hlt.trans_le hmono)
  · rcases SequenceTracker.push_keeps hsound.settled hk.near hahead hi with hsame | hready
    · exact Or.inr ⟨i, by rw [hsame]; exact hi, by rw [hsame]; exact hseq⟩
    · -- it has been delivered, so its number is behind the counter
      have hlt := lt_next_of_appeared (hsound.push hmem) Session.seq_le hn
        (List.mem_append_right _ hready)
      rw [hsound.settled.frameSeq hi, hseq] at hlt
      exact Or.inl hlt

/-- **The step**: pushing a frame that is at most 64 ahead. -/
theorem Keeps.push (hk : h.Keeps S arrived) (hn : S.frames.length < 2 ^ 64 - 1)
    {f : List UInt8} (hmem : f ∈ S.frames)
    (hahead : (frameSeq f).toNat ≤ h.tracker.stats.nextExpected.toNat + 64) :
    Keeps S (fun s => arrived s ∨ s = (frameSeq f).toNat)
      { h with tracker := (h.tracker.push f).1 } := by
  obtain ⟨h20, h44⟩ := Session.frame_size hmem
  have hsound := hk.follows.sound
  have hmono := hsound.push_mono Session.seq_le hn hmem
  refine ⟨hk.follows.push hn hmem, ?_, ?_, ?_⟩
  · intro i hi
    show _ ≤ (h.tracker.push f).1.stats.nextExpected.toNat + 64
    rcases SequenceTracker.push_window hi with hsame | ⟨-, hseq⟩
    · have hold := hk.near i (by rw [← hsame]; exact hi)
      rw [← hsame] at hold
      exact hold.trans (Nat.add_le_add_right hmono 64)
    · rw [hseq]
      exact hahead.trans (Nat.add_le_add_right hmono 64)
  · exact gapOk_mono (SequenceTracker.push_gapOk hk.reach hahead hmono)
      (Nat.add_le_add_right hmono 64)
  · rintro s (hs | rfl)
    · exact hk.held_push hn hmem hahead (hk.held s hs)
    · exact push_held hsound Session.seq_le hn hmem h20 h44

theorem Keeps.weaken {arrived' : Nat → Prop} (hk : h.Keeps S arrived)
    (hsub : ∀ s, arrived' s → arrived s) : h.Keeps S arrived' :=
  ⟨hk.follows, hk.near, hk.reach, fun s hs => hk.held s (hsub s hs)⟩

/-- Frames up to a number that is at most 64 ahead, one after the other. -/
theorem Keeps.pushes (hk : h.Keeps S arrived) (hn : S.frames.length < 2 ^ 64 - 1)
    {frames : List (List UInt8)} {m : Nat} (hmem : ∀ f ∈ frames, f ∈ S.frames)
    (hle : ∀ f ∈ frames, (frameSeq f).toNat ≤ m)
    (hahead : m ≤ h.tracker.stats.nextExpected.toNat + 64) :
    Keeps S arrived { h with tracker := frames.foldl (fun t f => (t.push f).1) h.tracker } := by
  induction frames generalizing h with
  | nil => exact hk
  | cons f frames ih =>
    have hf : f ∈ S.frames := hmem f List.mem_cons_self
    have hmono := hk.follows.sound.push_mono Session.seq_le hn hf
    have hpush := hk.push hn hf ((hle f List.mem_cons_self).trans hahead)
    refine ih (hpush.weaken fun s hs => Or.inl hs) (fun g hg => hmem g (List.mem_cons_of_mem _ hg))
      (fun g hg => hle g (List.mem_cons_of_mem _ hg)) ?_
    exact hahead.trans (Nat.add_le_add_right hmono 64)

theorem range_seq_le {lo hi : Nat} (hlo : 1 ≤ lo) :
    ∀ f ∈ S.range lo hi, (frameSeq f).toNat ≤ hi := by
  intro f hf
  obtain ⟨i, hi', rfl⟩ := List.mem_iff_getElem.mp hf
  unfold Session.range at hi' ⊢
  rw [List.length_take, List.length_drop] at hi'
  rw [List.getElem_take, List.getElem_drop, Session.frameSeq_getElem]
  omega

/-- **An attempt to recover evicts nothing**, whether it fails, breaks off or succeeds. -/
theorem Keeps.tryRecover (hk : h.Keeps S arrived) (hn : S.frames.length < 2 ^ 64 - 1)
    {rec : Recovery} (hrec : rec.Serves S h.tracker) : (h.tryRecover rec).Keeps S arrived := by
  have hfollows := hk.follows.tryRecover hn hrec.fromSession
  rcases tryRecover_cases h rec with ⟨-, heq⟩ | ⟨hpend, heq | ⟨sentNs, heq⟩ | hans⟩
  · rw [heq]
    exact hk
  · rw [heq]
    exact hk
  · rw [heq] at hfollows ⊢
    exact ⟨hfollows, hk.near, hk.reach, hk.held⟩
  · obtain ⟨sentNs, resp, chunks, latencyNs, rfl, heq⟩ := hans
    rw [heq] at hfollows ⊢
    obtain ⟨k, -, -, -, hsplit⟩ := splits_of_prefix Session.range_whole hrec
    have hgap := hk.reach (SequenceTracker.gapPending_iff.mp hpend)
    have hpieces : ∀ f ∈ (S.range h.tracker.gapStart.toNat h.tracker.gapEnd.toNat).take k,
        (frameSeq f).toNat ≤ h.tracker.gapEnd.toNat := fun f hf =>
      range_seq_le (gapStart_pos hpend) f (List.mem_of_mem_take hf)
    have hpushed := hk.pushes hn (fun f hf => Session.range_subset f (List.mem_of_mem_take hf))
      hpieces (by omega)
    rw [← pushPayload_eq hsplit] at hpushed
    exact ⟨hfollows, hpushed.near, fun hnone => absurd rfl hnone, hpushed.held⟩

theorem Keeps.drain (hk : h.Keeps S arrived) : h.drain.Keeps S arrived := by
  have htracker := drain_tracker h
  refine ⟨hk.follows.drain.1, ?_, ?_, ?_⟩
  · rw [htracker]
    exact hk.near
  · rw [htracker]
    exact hk.reach
  · rw [htracker]
    exact hk.held

/-- The number the handler waits for is neither delivered nor in the window. -/
theorem Follows.not_held (hf : h.Follows S) : ¬ Held h.tracker.stats.nextExpected.toNat h.tracker := by
  rintro (hlt | ⟨i, hi, hseq⟩)
  · exact lt_irrefl _ hlt
  · obtain ⟨-, -, -, hlo, -⟩ := hf.sound.settled i hi
    have hlt : h.tracker.stats.nextExpected.toNat < (h.tracker.window i).seq.toNat := hlo
    omega

end FeedHandler

/-! ## Runs -/

/-- When a number arrives, every number that is 65 or more below it has arrived before. -/
def Displaced (calls : List (List UInt8 × Recovery)) : Prop :=
  ∀ pre c, pre ++ [c] <+: calls → ∀ k, 1 ≤ k → k + 65 ≤ carried c.1 →
    ∃ c' ∈ pre, carried c'.1 = k

/-- The attempts of the run fail, or bring a prefix of what they asked for. -/
def Served (S : Session) (calls : List (List UInt8 × Recovery)) : Prop :=
  ∀ pre c, pre ++ [c] <+: calls → c.2.Serves S ((runCalls pre).afterPush c.1)

/-- The frame of a datagram has arrived. -/
def ArrivedIn (calls : List (List UInt8 × Recovery)) (s : Nat) : Prop :=
  1 ≤ s ∧ ∃ c ∈ calls, carried c.1 = s

theorem runCalls_keeps {S : Session} (hn : S.frames.length < 2 ^ 64 - 1)
    {calls : List (List UInt8 × Recovery)} (hd : ∀ c ∈ calls, S.Datagram c.1)
    (hdisp : Displaced calls) (hserved : Served S calls) :
    (runCalls calls).Keeps S (ArrivedIn calls) ∧ (runCalls calls).tracker.ready = [] := by
  induction calls using List.reverseRecOn with
  | nil =>
    refine ⟨(FeedHandler.keeps_start S).weaken ?_, rfl⟩
    rintro s ⟨-, c, hc, -⟩
    cases hc
  | append_singleton pre c ih =>
    have hpre : pre <+: pre ++ [c] := List.prefix_append _ _
    obtain ⟨hk, hready⟩ := ih (fun c' hc' => hd c' (List.mem_append_left _ hc'))
      (fun pre' c' h => hdisp pre' c' (h.trans hpre)) (fun pre' c' h => hserved pre' c' (h.trans hpre))
    have hdc : S.Datagram c.1 := hd c (by simp)
    rw [runCalls_snoc]
    by_cases hok : (parseMessage c.1).status = .ok
    · have hmem := hdc.frame hok
      -- otherwise the number waited for had to arrive before, and would be held
      have hahead : (frameSeq (c.1.take (parseMessage c.1).consumed)).toNat
          ≤ (runCalls pre).tracker.stats.nextExpected.toNat + 64 := by
        by_contra hfar
        have hnext := (hk.follows.handled_eq hready hn).1
        have hpos : 1 ≤ (runCalls pre).tracker.stats.nextExpected.toNat := by omega
        obtain ⟨c', hc', hcarried⟩ := hdisp pre c List.prefix_rfl _ hpos
          (by rw [Session.carried_frame hok]; omega)
        exact hk.follows.not_held (hk.held _ ⟨hpos, c', hc', hcarried⟩)
      have hpushed := hk.push hn hmem hahead
      rw [FeedHandler.processDatagram_accepted c.2 hok]
      have hrec := (hpushed.tryRecover hn (hserved pre c List.prefix_rfl)).drain
      refine ⟨hrec.weaken ?_, by rw [FeedHandler.drain_tracker]; rfl⟩
      rintro s ⟨hpos, c', hc', hs⟩
      rcases List.mem_append.mp hc' with hold | hnew
      · exact Or.inl ⟨hpos, c', hold, hs⟩
      · rw [List.mem_singleton.mp hnew, Session.carried_frame hok] at hs
        exact Or.inr hs.symm
    · rw [FeedHandler.processDatagram_rejected c.2 hok]
      refine ⟨hk.weaken ?_, hready⟩
      rintro s ⟨hpos, c', hc', hs⟩
      rcases List.mem_append.mp hc' with hold | hnew
      · exact ⟨hpos, c', hold, hs⟩
      · have hzero : carried c.1 = 0 := if_neg hok
        rw [List.mem_singleton.mp hnew, hzero] at hs
        omega

/-- A displaced run that brings the whole session delivers the whole session. -/
theorem runCalls_complete {S : Session} (hn : S.frames.length < 2 ^ 64 - 1)
    {calls : List (List UInt8 × Recovery)} (hd : ∀ c ∈ calls, S.Datagram c.1)
    (hdisp : Displaced calls) (hserved : Served S calls)
    (hall : ∀ s, 1 ≤ s → s ≤ S.frames.length → ∃ c ∈ calls, carried c.1 = s) :
    (runCalls calls).tracker.stats.nextExpected.toNat = S.frames.length + 1 ∧
      (runCalls calls).tracker.gapPending = false ∧
      (runCalls calls).toOutputs = Outputs.replay S.frames := by
  obtain ⟨hk, hready⟩ := runCalls_keeps hn hd hdisp hserved
  obtain ⟨hnext, hle, htake⟩ := hk.follows.handled_eq hready hn
  have hend : (runCalls calls).tracker.stats.nextExpected.toNat = S.frames.length + 1 := by
    by_contra hne
    have hpos : 1 ≤ (runCalls calls).tracker.stats.nextExpected.toNat := by omega
    exact hk.follows.not_held (hk.held _ ⟨hpos, hall _ hpos (by omega)⟩)
  refine ⟨hend, ?_, ?_⟩
  · rw [Bool.eq_false_iff]
    intro hpend
    obtain ⟨-, hend', hlast⟩ := hk.follows.gap (SequenceTracker.gapPending_iff.mp hpend)
    omega
  · rw [hk.follows.outputs, htake, hend, Nat.add_sub_cancel, List.take_length]

/-! ## The sender -/

section Sender

variable {draws : Nat → SendDraw} {size : Nat}

/-- A log in which every frame comes behind all those that are 65 or more before it in the session. -/
def Paced (sent : List Outgoing) : Prop :=
  ∀ a o, a ++ [o] <+: sent → ∀ k, k + 65 ≤ o.index → ∃ e ∈ a, e.index = k

theorem Paced.snoc {sent : List Outgoing} {o : Outgoing} (h : Paced sent)
    (ho : ∀ k, k + 65 ≤ o.index → ∃ e ∈ sent, e.index = k) : Paced (sent ++ [o]) := by
  intro a o' hpre k hk
  rcases List.prefix_concat_iff.mp hpre with heq | hold
  · obtain ⟨rfl, hlast⟩ := List.append_inj' heq rfl
    obtain rfl := List.singleton_inj.mp hlast
    exact ho k hk
  · exact h a o' hold k hk

/-- **The sender after `m` frames.** The frames from `r` on were put aside, and so were those that still
wait; at most two of them are from before that run. -/
structure Trails (draws : Nat → SendDraw) (size m r : Nat) (s : SenderState) : Prop where
  paced : Paced s.sent
  split : ∀ k, k < m → (∃ e ∈ s.sent, e.index = k) ∨ ∃ d ∈ s.delayed, d.index = k
  recent : ∀ d ∈ s.delayed, r ≤ d.index + 2 ∧ d.index < m
  sorted : s.delayed.Pairwise fun d e => d.index < e.index
  start : r ≤ m
  run : ∀ k, r ≤ k → k < m → (draws k).reordered = true ∧ k + 1 < size

namespace Trails

variable {m r : Nat} {s : SenderState}

theorem empty : Trails draws size 0 0 {} where
  paced := by
    intro a o hpre
    rw [List.prefix_nil] at hpre
    simp at hpre
  split := fun k hk => absurd hk (Nat.not_lt_zero k)
  recent := fun d hd => by cases hd
  sorted := List.Pairwise.nil
  start := le_rfl
  run := fun k _ hk => absurd hk (Nat.not_lt_zero k)

/-- What has not been sent is at most 64 behind. -/
theorem unsent (h : Trails draws size m r s) (hrun : m ≤ r + 62) {k : Nat} (hk : k + 65 ≤ m) :
    ∃ e ∈ s.sent, e.index = k := by
  rcases h.split k (by omega) with hsent | ⟨d, hd, rfl⟩
  · exact hsent
  · have hrecent := (h.recent d hd).1
    omega

/-- A frame that is put aside. -/
theorem putAside (h : Trails draws size m r s) {o : Outgoing} (ho : o.index = m)
    (hchosen : (draws m).reordered = true ∧ m + 1 < size) :
    Trails draws size (m + 1) r { s with delayed := s.delayed ++ [o] } where
  paced := h.paced
  split := by
    intro k hk
    rcases Nat.lt_succ_iff_lt_or_eq.mp hk with hlt | rfl
    · rcases h.split k hlt with hsent | ⟨d, hd, hdk⟩
      · exact Or.inl hsent
      · exact Or.inr ⟨d, List.mem_append_left _ hd, hdk⟩
    · exact Or.inr ⟨o, by simp, ho⟩
  recent := by
    intro d hd
    rcases List.mem_append.mp hd with hd | hd
    · obtain ⟨hlo, hhi⟩ := h.recent d hd
      exact ⟨hlo, by omega⟩
    · rw [List.mem_singleton.mp hd, ho]
      have hstart := h.start
      exact ⟨by omega, Nat.lt_succ_self m⟩
  sorted := by
    rw [List.pairwise_append]
    refine ⟨h.sorted, List.pairwise_singleton _ _, ?_⟩
    intro d hd e he
    rw [List.mem_singleton.mp he, ho]
    exact (h.recent d hd).2
  start := Nat.le_succ_of_le h.start
  run := by
    intro k hr hk
    rcases Nat.lt_succ_iff_lt_or_eq.mp hk with hlt | rfl
    · exact h.run k hr hlt
    · exact hchosen

/-- The `while` loop behind frame `m`: it sends what waits, but for the frame right before `m`. -/
theorem sendDue {sent delayed : List Outgoing} (hpaced : Paced sent)
    (hsplit : ∀ k, k < m + 1 → (∃ e ∈ sent, e.index = k) ∨ ∃ d ∈ delayed, d.index = k)
    (hrecent : ∀ d ∈ delayed, m ≤ d.index + 64 ∧ d.index < m)
    (hsorted : delayed.Pairwise fun d e => d.index < e.index) :
    Trails draws size (m + 1) (m + 1) (Feed.sendDue m sent delayed) := by
  induction delayed generalizing sent with
  | nil =>
    exact ⟨hpaced, hsplit, fun d hd => absurd hd List.not_mem_nil, hsorted, le_rfl,
      fun k hr hk => absurd hk (by omega)⟩
  | cons d rest ih =>
    have hd := hrecent d List.mem_cons_self
    unfold Feed.sendDue
    split_ifs with hdue
    · refine ih (hpaced.snoc ?_) ?_ (fun e he => hrecent e (List.mem_cons_of_mem _ he))
        (List.Pairwise.of_cons hsorted)
      · intro k hk
        rcases hsplit k (by omega) with hsent | ⟨e, he, rfl⟩
        · exact hsent
        · have hlate := (hrecent e he).1
          omega
      · intro k hk
        rcases hsplit k hk with ⟨e, he, hek⟩ | ⟨e, he, hek⟩
        · exact Or.inl ⟨e, List.mem_append_left _ he, hek⟩
        · rcases List.mem_cons.mp he with rfl | he
          · exact Or.inl ⟨e, by simp, hek⟩
          · exact Or.inr ⟨e, he, hek⟩
    · refine ⟨hpaced, hsplit, ?_, hsorted, le_rfl, fun k hr hk => absurd hk (by omega)⟩
      -- the first one is not due, and the others come later in the session
      intro e he
      have hlt := (hrecent e he).2
      rcases List.mem_cons.mp he with rfl | he
      · exact ⟨by omega, by omega⟩
      · have hafter := List.rel_of_pairwise_cons hsorted he
        exact ⟨by omega, by omega⟩

/-- A frame that is sent in its turn. -/
theorem send (h : Trails draws size m r s) (hrun : m ≤ r + 62) {o : Outgoing} (ho : o.index = m) :
    Trails draws size (m + 1) (m + 1) (Feed.sendDue o.index (s.sent ++ [o]) s.delayed) := by
  rw [ho]
  refine sendDue (h.paced.snoc fun k hk => h.unsent hrun (ho ▸ hk)) ?_ ?_ h.sorted
  · intro k hk
    rcases Nat.lt_succ_iff_lt_or_eq.mp hk with hlt | rfl
    · rcases h.split k hlt with ⟨e, he, hek⟩ | hwaits
      · exact Or.inl ⟨e, List.mem_append_left _ he, hek⟩
      · exact Or.inr hwaits
    · exact Or.inl ⟨o, by simp, ho⟩
  · intro d hd
    obtain ⟨hlo, hhi⟩ := h.recent d hd
    exact ⟨by omega, hhi⟩

/-- No 63 frames in a row are put aside, so the run before frame `m` is shorter. -/
theorem short (h : Trails draws size m r s)
    (hruns : ∀ i, i + 63 < size → ∃ k, i ≤ k ∧ k < i + 63 ∧ (draws k).reordered = false) :
    m ≤ r + 62 := by
  by_contra hlong
  obtain ⟨k, hlo, hhi, hk⟩ := hruns r (h.run (r + 62) (by omega) (by omega)).2
  rw [(h.run k hlo (by omega)).1] at hk
  cases hk

/-- **One pass of the loop**, over a frame that is not lost. -/
theorem pass (h : Trails draws size m r s)
    (hruns : ∀ i, i + 63 < size → ∃ k, i ≤ k ∧ k < i + 63 ∧ (draws k).reordered = false)
    {o : Outgoing} (ho : o.index = m) (hkept : (draws m).lost = false) :
    ∃ r', Trails draws size (m + 1) r' (s.pass draws size o) := by
  subst ho
  unfold SenderState.pass
  rw [if_neg (by rw [hkept]; decide)]
  split_ifs with hchosen
  · have hboth := Bool.and_eq_true_iff.mp hchosen
    rw [decide_eq_true_eq] at hboth
    exact ⟨r, h.putAside rfl hboth⟩
  · exact ⟨o.index + 1, h.send (h.short hruns) rfl⟩

end Trails

/-- What was sent and what still waits, one after the other. -/
theorem Trails.flush {m r : Nat} {sent delayed : List Outgoing}
    (h : Trails draws size m r ⟨sent, delayed⟩) (hrun : m ≤ r + 62) : Paced (sent ++ delayed) := by
  have hall : ∀ rest, rest <+: delayed → Paced (sent ++ rest) := by
    intro rest
    induction rest using List.reverseRecOn with
    | nil =>
      intro _
      rw [List.append_nil]
      exact h.paced
    | append_singleton rest d ih =>
      intro hpre
      rw [← List.append_assoc]
      refine (ih ((List.prefix_append _ _).trans hpre)).snoc fun k hk => ?_
      have hd := (h.recent d (hpre.subset (by simp))).2
      obtain ⟨e, he, hek⟩ := h.unsent hrun (k := k) (by omega)
      exact ⟨e, List.mem_append_left _ he, hek⟩
  exact hall delayed List.prefix_rfl

end Sender

section Session

variable (draws : Nat → SendDraw) (session : List (List UInt8))
  (hkept : ∀ i, i < session.length → (draws i).lost = false)
  (hruns : ∀ i, i + 63 < session.length → ∃ k, i ≤ k ∧ k < i + 63 ∧ (draws k).reordered = false)

include hkept hruns in
theorem sendLoop_trails : ∃ r, Trails draws session.length session.length r (sendLoop draws session) := by
  have hlen : (numbered session).length = session.length := by simp [numbered]
  have hall : ∀ m, m ≤ session.length → ∃ r, Trails draws session.length m r
      (((numbered session).take m).foldl (SenderState.pass draws session.length) {}) := by
    intro m
    induction m with
    | zero => exact fun _ => ⟨0, Trails.empty⟩
    | succ m ih =>
      intro hm
      obtain ⟨r, hr⟩ := ih (by omega)
      have hindex : (numbered session)[m].index = m := by simp [numbered]
      rw [List.take_succ_eq_append_getElem (by omega), List.foldl_append]
      exact hr.pass hruns hindex (hkept m (by omega))
  obtain ⟨r, hr⟩ := hall session.length le_rfl
  rw [← hlen, List.take_length, hlen] at hr
  exact ⟨r, hr⟩

include hkept hruns in
/-- **The sender keeps the pace.** -/
theorem sendAll_paced : Paced (sendAll draws session) := by
  obtain ⟨r, hr⟩ := sendLoop_trails draws session hkept hruns
  exact hr.flush (hr.short hruns)

end Session

/-! ## Sender and handler -/

theorem carried_getElem {S : Session} {i : Nat} (hi : i < S.frames.length) :
    carried S.frames[i] = i + 1 := by
  obtain ⟨hok, hlen⟩ := S.whole _ (List.getElem_mem hi)
  rw [Session.carried_frame hok, hlen, List.take_length, Session.frameSeq_getElem hi]

/-- An entry of the log is the frame at its index. -/
theorem carried_of_mem_sendAll {S : Session} {draws : Nat → SendDraw} {o : Outgoing}
    (ho : o ∈ sendAll draws S.frames) : carried o.frame = o.index + 1 := by
  have hmem := List.mem_of_mem_filter ((sendAll_perm draws S.frames).mem_iff.mp ho)
  obtain ⟨i, hi, rfl⟩ := List.mem_iff_getElem.mp hmem
  have hlt : i < S.frames.length := by simpa [numbered] using hi
  have hget : (numbered S.frames)[i] = ⟨i, S.frames[i]⟩ := by simp [numbered]
  rw [hget]
  exact carried_getElem hlt

/-- The numbers of a prefix of the run are those of a prefix of the log. -/
theorem displaced_of_paced {S : Session} {draws : Nat → SendDraw}
    {calls : List (List UInt8 × Recovery)} (hsent : calls.map Prod.fst = datagrams draws S.frames)
    (hpaced : Paced (sendAll draws S.frames)) : Displaced calls := by
  intro pre c hpre k hpos hk
  have hmap := hpre.map Prod.fst
  rw [hsent, datagrams, List.prefix_map_iff] at hmap
  obtain ⟨log, hlog, heq⟩ := hmap
  rw [List.map_append, List.map_singleton] at heq
  obtain ⟨a, b, rfl, ha, hb⟩ := List.append_eq_map_iff.mp heq
  obtain ⟨o, rfl, ho⟩ := List.map_eq_singleton_iff.mp hb
  have hmem : ∀ e ∈ a ++ [o], carried e.frame = e.index + 1 := fun e he =>
    carried_of_mem_sendAll (hlog.subset he)
  rw [← ho, hmem o (by simp)] at hk
  obtain ⟨e, he, hek⟩ := hpaced a o hlog (k - 1) (by omega)
  have hframe : e.frame ∈ pre.map Prod.fst := by
    rw [← ha]
    exact List.mem_map_of_mem he
  obtain ⟨c', hc', hfst⟩ := List.mem_map.mp hframe
  refine ⟨c', hc', ?_⟩
  rw [hfst, hmem e (by simp [he])]
  omega

/-- **Delays alone cost nothing.** The simulator sends a session without loss, and never puts aside 63
frames in a row.  However the attempts to recover go (they may all fail), the handler has handled the
whole session when the last datagram is in, once each and in order, and no gap is pending. -/
theorem reordered_session_delivered (S : Session) (hn : S.frames.length < 2 ^ 64 - 1)
    (draws : Nat → SendDraw) (hkept : ∀ i, i < S.frames.length → (draws i).lost = false)
    (hruns : ∀ i, i + 63 < S.frames.length →
      ∃ k, i ≤ k ∧ k < i + 63 ∧ (draws k).reordered = false)
    (calls : List (List UInt8 × Recovery))
    (hsent : calls.map Prod.fst = datagrams draws S.frames) (hserved : Served S calls) :
    (runCalls calls).tracker.stats.nextExpected.toNat = S.frames.length + 1 ∧
      (runCalls calls).tracker.gapPending = false ∧
      (runCalls calls).toOutputs = Outputs.replay S.frames := by
  have hpaced := sendAll_paced draws S.frames hkept hruns
  have hmem : ∀ c ∈ calls, c.1 ∈ datagrams draws S.frames := by
    intro c hc
    rw [← hsent]
    exact List.mem_map_of_mem hc
  refine runCalls_complete hn (fun c hc => ?_) (displaced_of_paced hsent hpaced) hserved ?_
  · exact Or.inl ⟨c.1, mem_of_mem_datagrams (hmem c hc), [], (List.append_nil _).symm⟩
  · intro s hpos hs
    obtain ⟨r, hr⟩ := sendLoop_trails draws S.frames hkept hruns
    have hin : ∃ o ∈ sendAll draws S.frames, o.index = s - 1 := by
      rcases hr.split (s - 1) (by omega) with ⟨e, he, hes⟩ | ⟨d, hd, hds⟩
      · exact ⟨e, List.mem_append_left _ he, hes⟩
      · exact ⟨d, List.mem_append_right _ hd, hds⟩
    obtain ⟨o, ho, hos⟩ := hin
    have hframe : o.frame ∈ calls.map Prod.fst := by
      rw [hsent]
      exact List.mem_map_of_mem ho
    obtain ⟨c, hc, hfst⟩ := List.mem_map.mp hframe
    refine ⟨c, hc, ?_⟩
    rw [hfst, carried_of_mem_sendAll ho]
    omega

/-- The first of three frames is put aside, and no attempt to recover connects. -/
theorem reordered_session_delivered_first_late :
    let draws : Nat → SendDraw := fun i => { reordered := i == 0 }
    let calls := (datagrams draws sampleSession.frames).map fun d => (d, Recovery.connectFailed)
    calls.map (fun c => carried c.1) = [2, 3, 1] ∧
      (runCalls calls).toOutputs = Outputs.replay sampleSession.frames := by
  intro draws calls
  have hsent : calls.map Prod.fst = datagrams draws sampleSession.frames := by
    rw [List.map_map]
    exact List.map_id _
  have hserved : Served sampleSession calls := by
    intro pre c hpre
    obtain ⟨d, -, rfl⟩ := List.mem_map.mp (hpre.subset (by simp : c ∈ pre ++ [c]))
    trivial
  have hlen : sampleSession.frames.length = 3 := rfl
  refine ⟨by decide +kernel, ?_⟩
  exact (reordered_session_delivered sampleSession (by decide) draws (fun _ _ => rfl)
    (fun i hi => by omega) calls hsent hserved).2.2

end MarketDataPipeline.Feed
