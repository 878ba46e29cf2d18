/-
# MarketDataPipeline.Feed.Payload — cutting a recovery payload into frames.

The second half of `try_recover`: `receivePayload` is the loop that fills the payload vector from the
socket, `payloadLoop` the loop that parses it and pushes frame after frame.  The latter is written for
any consumer of frames (`push`), because what it hands over and where it stops does not depend on the
tracker behind it.

Every access goes through `readSpan` or the checked parser and a result `none` stands for a read
outside the received bytes.  `payloadLoop_eq` shows that this never happens and that the loop is
exactly the splitting of a prefix code; the framing theorem is then the library's.
-/
import MarketDataPipeline.Library.Framing
import MarketDataPipeline.Library.Loop
import MarketDataPipeline.Wire.RoundTrip

namespace MarketDataPipeline.Feed

open MarketDataPipeline.Library.Loop
open MarketDataPipeline.Library.Framing
open MarketDataPipeline.Wire

/-! ## The two loops -/

/-- The loop around `recv`: it stops when the vector is full or a call returns nothing, and a call
never returns more than what still fits.  The list holds what each call has to offer; at its end the
connection is closed. -/
def receivePayload (nbytes : Nat) (got : List UInt8) : List (List UInt8) → List UInt8
  | [] => got
  | chunk :: rest =>
    if got.length < nbytes then
      if chunk = [] then got
      else receivePayload nbytes (got ++ chunk.take (nbytes - got.length)) rest
    else got

/-- `std::span(data + off, len)`, or `none` if it is not inside the bytes. -/
def readSpan (bytes : List UInt8) (off len : Nat) : Option (List UInt8) :=
  if off + len ≤ bytes.length then some ((bytes.drop off).take len) else none

variable {σ : Type}

/-- One pass of the parse loop over the received bytes. -/
def payloadPass (push : σ → List UInt8 → σ) (got : List UInt8) (s : σ × Nat) :
    Pass (σ × Nat) (Option σ) :=
  if s.2 < got.length then
    match (readSpan got s.2 (got.length - s.2)).bind parseChecked with
    | none => .done none
    | some parsed =>
      -- a frame that is cut or damaged ends the loop, what was pushed stays
      if parsed.status ≠ .ok ∨ parsed.consumed = 0 then .done (some s.1)
      else
        match readSpan got s.2 parsed.consumed with
        | none => .done none
        | some framed => .again (push s.1 framed, s.2 + parsed.consumed)
  else .done (some s.1)

theorem payloadPass_variant (push : σ → List UInt8 → σ) (got : List UInt8) :
    Variant (payloadPass push got) (fun s => got.length - s.2) := by
  intro s s' h
  unfold payloadPass at h
  split_ifs at h with hoff
  split at h
  · cases h
  · split_ifs at h with hbad
    split at h
    · cases h
    · cases h
      rw [not_or] at hbad
      dsimp only
      omega

/-- The parse loop, from the start of the received bytes. -/
def payloadLoop (push : σ → List UInt8 → σ) (got : List UInt8) (s : σ) : Option σ :=
  run (payloadPass push got) _ (payloadPass_variant push got) (s, 0)

/-! ## Messages as a prefix code -/

/-- The frames of the wire format. -/
def wireFrames : PrefixCode UInt8 where
  head b := if (parseMessage b).status = .ok then some (parseMessage b).consumed else none
  head_pos := by
    intro b n h
    split_ifs at h with hok
    have hbounds := parseMessage_ok_bounds hok
    rw [← Option.some.inj h]
    omega
  head_le := by
    intro b n h
    split_ifs at h with hok
    rw [← Option.some.inj h]
    exact (parseMessage_ok_bounds hok).2.2
  head_take := by
    intro b n h t
    split_ifs at h with hok
    rw [← Option.some.inj h, parseMessage_take_append hok, if_pos hok]

/-- A byte string that is one message: `parse_message` accepts it and consumes all of it. -/
def IsFrame (f : List UInt8) : Prop :=
  (parseMessage f).status = .ok ∧ (parseMessage f).consumed = f.length

instance (f : List UInt8) : Decidable (IsFrame f) := inferInstanceAs (Decidable (_ ∧ _))

theorem whole_iff {f : List UInt8} : wireFrames.Whole f ↔ IsFrame f := by
  unfold PrefixCode.Whole IsFrame wireFrames
  constructor
  · intro h
    dsimp only at h
    split_ifs at h with hok
    exact ⟨hok, Option.some.inj h⟩
  · rintro ⟨hok, hlen⟩
    dsimp only
    rw [if_pos hok, hlen]

/-! ## The loop splits the payload -/

theorem readSpan_eq {bytes : List UInt8} {off len : Nat} (h : off + len ≤ bytes.length) :
    readSpan bytes off len = some ((bytes.drop off).take len) := if_pos h

/-- One pass, in terms of the bytes that are left. -/
theorem payloadPass_eq (push : σ → List UInt8 → σ) {got : List UInt8} {s : σ × Nat}
    (hoff : s.2 ≤ got.length) :
    payloadPass push got s =
      match wireFrames.head (got.drop s.2) with
      | none => .done (some s.1)
      | some n => .again (push s.1 ((got.drop s.2).take n), s.2 + n) := by
  unfold payloadPass
  by_cases hlt : s.2 < got.length
  · have hspan : readSpan got s.2 (got.length - s.2) = some (got.drop s.2) := by
      rw [readSpan_eq (by omega), ← List.length_drop, List.take_length]
    rw [if_pos hlt, hspan, Option.bind_some, parseChecked_eq]
    dsimp only [wireFrames]
    by_cases hok : (parseMessage (got.drop s.2)).status = .ok
    · obtain ⟨h20, -, hle⟩ := parseMessage_ok_bounds hok
      rw [List.length_drop] at hle
      have hgood : ¬ ((parseMessage (got.drop s.2)).status ≠ .ok ∨
          (parseMessage (got.drop s.2)).consumed = 0) := by
        rintro (hbad | hzero)
        · exact hbad hok
        · omega
      rw [if_neg hgood, if_pos hok, readSpan_eq (by omega)]
    · rw [if_pos (Or.inl hok), if_neg hok]
  · have hend : got.drop s.2 = [] := by
      rw [List.drop_eq_nil_iff]
      omega
    rw [if_neg hlt, hend, head_nil]

/-- **The parse loop is a fold over the pieces of the splitting**, and never reads outside. -/
theorem payloadLoop_eq {got : List UInt8} {pieces : List (List UInt8)}
    (h : Splits wireFrames got pieces) (push : σ → List UInt8 → σ) (s : σ) :
    payloadLoop push got s = some (pieces.foldl push s) := by
  -- by induction on the splitting, for the loop started at any offset
  have key : ∀ (rest : List UInt8) (ps : List (List UInt8)), Splits wireFrames rest ps →
      ∀ (s : σ) (off : Nat), off ≤ got.length → rest = got.drop off →
        run (payloadPass push got) _ (payloadPass_variant push got) (s, off)
          = some (ps.foldl push s) := by
    intro rest ps hs
    induction hs with
    | stop hnone =>
      rintro s off hoff rfl
      have hpass := payloadPass_eq push (s := (s, off)) hoff
      simp only [hnone] at hpass
      exact run_done hpass
    | @next rest n ps hhead _ ih =>
      rintro s off hoff rfl
      have hpass := payloadPass_eq push (s := (s, off)) hoff
      simp only [hhead] at hpass
      have hle := wireFrames.head_le hhead
      rw [List.length_drop] at hle
      rw [run_again hpass, ih _ _ (by omega) (by rw [List.drop_drop])]
      rfl
  exact key got pieces h s 0 (Nat.zero_le _) rfl

/-- **Recovery payload framing.** From any prefix of a concatenation of frames the loop pushes the
longest list of leading frames that is complete; from any bytes at all it stops, without a read outside
them, and what it pushes is a run of consecutive pieces from the front. -/
theorem recovery_payload_framing :
    (∀ (frames : List (List UInt8)) (p : List UInt8), (∀ f ∈ frames, IsFrame f) →
      p <+: frames.flatten →
      ∃ k ≤ frames.length, (frames.take k).flatten <+: p ∧
        (∀ j ≤ frames.length, (frames.take j).flatten <+: p → j ≤ k) ∧
        ∀ (σ : Type) (push : σ → List UInt8 → σ) (s : σ),
          Halts (payloadPass push p) (s, 0) ∧
            payloadLoop push p s = some ((frames.take k).foldl push s)) ∧
    ∀ bytes : List UInt8, ∃ pieces : List (List UInt8), pieces.flatten <+: bytes ∧
      ∀ (σ : Type) (push : σ → List UInt8 → σ) (s : σ),
        Halts (payloadPass push bytes) (s, 0) ∧
          payloadLoop push bytes s = some (pieces.foldl push s) := by
  constructor
  · intro frames p hframes hp
    obtain ⟨k, hk, hin, hmax, hsplit⟩ :=
      splits_of_prefix (fun f hf => whole_iff.mpr (hframes f hf)) hp
    refine ⟨k, hk, hin, hmax, ?_⟩
    intro σ push s
    exact ⟨halts_of_variant (payloadPass_variant push p) _, payloadLoop_eq hsplit push s⟩
  · intro bytes
    obtain ⟨pieces, hsplit⟩ := exists_splits (F := wireFrames) bytes
    refine ⟨pieces, hsplit.consecutive, ?_⟩
    intro σ push s
    exact ⟨halts_of_variant (payloadPass_variant push bytes) _, payloadLoop_eq hsplit push s⟩

/-- Two frames of 28 bytes. -/
def samplePayload : List (List UInt8) :=
  [(EncodeCall.heartbeat {} 1 0 0).bytes, (EncodeCall.heartbeat {} 2 0 0).bytes]

/-- The connection breaks two bytes into the second frame. -/
theorem recovery_payload_framing_cut :
    payloadLoop (fun l f => l ++ [f]) (samplePayload.flatten.take 30) []
      = some [(EncodeCall.heartbeat {} 1 0 0).bytes] := by
  have hframes : ∀ f ∈ samplePayload, IsFrame f := by decide +kernel
  obtain ⟨k, hk, hin, hmax, hloop⟩ :=
    recovery_payload_framing.1 samplePayload _ hframes (List.take_prefix 30 _)
  have hone : 1 ≤ k := by
    apply hmax 1 (by decide)
    rw [List.prefix_iff_eq_take]
    decide +kernel
  have htwo : k ≠ 2 := by
    rintro rfl
    exact absurd hin.length_le (by decide +kernel)
  have hlen : samplePayload.length = 2 := rfl
  obtain rfl : k = 1 := by omega
  exact (hloop _ (fun l f => l ++ [f]) []).2

end MarketDataPipeline.Feed
