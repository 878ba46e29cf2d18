/-
# MarketDataPipeline.Wire.Parser — `parse_message`.

The parser copies fixed-size structs out of a byte span whose length it has checked beforehand.  The
model keeps the copies checked: `copyOut` is `none` when the struct does not lie wholly inside the
span, and `parseChecked` is `none` as soon as one copy is.  `parseChecked_isSome` says that this never
happens, whatever the bytes are, and `parseMessage` is the result that is therefore always there.

The facts the rest of the pipeline uses are at the end: a result other than "truncated" does not
depend on what follows the bytes (`parseMessage_append`), an accepted message lies inside the span and
has between 20 and 44 bytes (`parseMessage_ok_bounds`), and the consumed bytes alone parse to the same
result (`parseMessage_take`).
-/
import MarketDataPipeline.Wire.Protocol

namespace MarketDataPipeline.Wire

open MarketDataPipeline.Library.ByteImage

/-! ## Results -/

inductive ParseStatus where
  | ok
  | truncated
  | badLength
  | unknownType
  | badSide
  deriving DecidableEq, Repr

/-- `std::variant` over the seven messages, with `std::monostate` for none. -/
inductive ParsedPayload where
  | monostate
  | addOrder (m : AddOrder)
  | modifyOrder (m : ModifyOrder)
  | deleteOrder (m : DeleteOrder)
  | trade (m : Trade)
  | heartbeat (m : Heartbeat)
  | gapRequest (m : GapRequest)
  | gapResponse (m : GapResponse)
  deriving DecidableEq, Repr

structure ParsedMessage where
  status : ParseStatus := .truncated
  payload : ParsedPayload := .monostate
  consumed : Nat := 0
  deriving DecidableEq, Repr

/-- `message_header`: the header of the message, if there is one. -/
def messageHeader (m : ParsedMessage) : Option Header :=
  match m.payload with
  | .monostate => none
  | .addOrder v => some v.hdr
  | .modifyOrder v => some v.hdr
  | .deleteOrder v => some v.hdr
  | .trade v => some v.hdr
  | .heartbeat v => some v.hdr
  | .gapRequest v => some v.hdr
  | .gapResponse v => some v.hdr

/-! ## The parser -/

def decodeSide (raw : UInt8) : Except ParseStatus Side :=
  if raw = Side.buy.toByte then .ok .buy
  else if raw = Side.sell.toByte then .ok .sell
  else .error .badSide

/-- `memcpy(&w, bytes.data(), sizeof(w))`, with `none` for a copy past the end of the span. -/
def copyOut {α : Type} (I : Image α) (bytes : List UInt8) : Option α := (I.get bytes).map Prod.fst

/-- The three cases of the `switch` that read an order-shaped struct and check its side. -/
def parseOrder (bytes : List UInt8) (make : WireOrder → Side → ParsedPayload) :
    Option (Except ParseStatus ParsedPayload) :=
  (copyOut WireOrder.image bytes).map fun w => (decodeSide w.side).map (make w)

/-- The `switch` on the message type. -/
def parseBody (hdr : Header) (bytes : List UInt8) : Option (Except ParseStatus ParsedPayload) :=
  match hdr.type with
  | .addOrder => parseOrder bytes fun w side =>
      .addOrder ⟨hdr, loadBe64 w.id, loadBe32 w.symbolId, side, loadBe32 w.price, loadBe32 w.qty⟩
  | .modifyOrder => parseOrder bytes fun w side =>
      .modifyOrder ⟨hdr, loadBe64 w.id, loadBe32 w.symbolId, side, loadBe32 w.price, loadBe32 w.qty⟩
  | .deleteOrder => (copyOut WireDeleteOrder.image bytes).map fun w =>
      .ok (.deleteOrder ⟨hdr, loadBe64 w.orderId, loadBe32 w.symbolId⟩)
  | .trade => parseOrder bytes fun w side =>
      .trade ⟨hdr, loadBe64 w.id, loadBe32 w.symbolId, side, loadBe32 w.price, loadBe32 w.qty⟩
  | .heartbeat => (copyOut WireHeartbeat.image bytes).map fun w =>
      .ok (.heartbeat ⟨hdr, loadBe64 w.exchangeTsNs⟩)
  | .gapRequest => (copyOut WireGapRequest.image bytes).map fun w =>
      .ok (.gapRequest ⟨hdr, loadBe64 w.startSeq, loadBe64 w.endSeq⟩)
  | .gapResponse => (copyOut WireGapResponse.image bytes).map fun w =>
      .ok (.gapResponse ⟨hdr, loadBe64 w.startSeq, loadBe64 w.endSeq, loadBe32 w.payloadBytes⟩)
  | .other _ => some (.error .unknownType)

/-- What `parse_message` does once the header is decoded. -/
def parseFramed (hdr : Header) (bytes : List UInt8) : Option ParsedMessage :=
  -- the length field is bounded before it is compared with the span
  if hdr.length.toNat < WireHeader.image.size ∨ kMaxMessageSize < hdr.length.toNat then
    some { status := .badLength }
  else if bytes.length < hdr.length.toNat then
    some { status := .truncated }
  else if wireLengthFor hdr.type = 0 then
    some { status := .unknownType }
  else if hdr.length ≠ wireLengthFor hdr.type then
    some { status := .badLength }
  else
    -- `consumed` is set before the body is looked at, so a bad side reports it too
    (parseBody hdr bytes).map fun
      | .ok payload => { status := .ok, payload := payload, consumed := hdr.length.toNat }
      | .error status => { status := status, consumed := hdr.length.toNat }

/-- `parse_message` with every copy checked. -/
def parseChecked (bytes : List UInt8) : Option ParsedMessage :=
  if bytes.length < WireHeader.image.size then
    some { status := .truncated }
  else
    (copyOut WireHeader.image bytes).bind fun wh => parseFramed (decodeHeader wh) bytes

/-! ## No copy leaves the span -/

theorem copyOut_isSome {α : Type} {I : Image α} {bytes : List UInt8} (h : I.size ≤ bytes.length) :
    (copyOut I bytes).isSome := by
  unfold copyOut
  rw [Option.isSome_map]
  exact I.get_isSome h

/-- Bytes behind the struct do not change the copy. -/
theorem copyOut_append {α : Type} {I : Image α} {bytes : List UInt8} (h : I.size ≤ bytes.length)
    (t : List UInt8) : copyOut I (bytes ++ t) = copyOut I bytes := by
  obtain ⟨a, ha, -⟩ := Image.get_eq_some h
  unfold copyOut
  rw [ha, Image.get_append ha t]
  rfl

/-- The struct that the `switch` copies has the size that the length field was compared with. -/
theorem parseBody_isSome {hdr : Header} {bytes : List UInt8}
    (h : (wireLengthFor hdr.type).toNat ≤ bytes.length) : (parseBody hdr bytes).isSome := by
  unfold parseBody
  cases ht : hdr.type <;> rw [ht] at h <;>
    simp only [parseOrder, Option.isSome_map, Option.isSome_some] <;>
    exact copyOut_isSome h

theorem parseBody_append {hdr : Header} {bytes : List UInt8}
    (h : (wireLengthFor hdr.type).toNat ≤ bytes.length) (t : List UInt8) :
    parseBody hdr (bytes ++ t) = parseBody hdr bytes := by
  unfold parseBody
  cases ht : hdr.type <;> rw [ht] at h <;> simp only [parseOrder]
  all_goals rw [copyOut_append h]

theorem parseFramed_isSome (hdr : Header) (bytes : List UInt8) :
    (parseFramed hdr bytes).isSome := by
  unfold parseFramed
  split_ifs with h1 h2 h3 h4
  · rfl
  · rfl
  · rfl
  · rfl
  · rw [Option.isSome_map]
    apply parseBody_isSome
    rw [← not_ne_iff.mp h4]
    omega

theorem parseChecked_isSome (bytes : List UInt8) : (parseChecked bytes).isSome := by
  unfold parseChecked
  split_ifs with h
  · rfl
  · have hsize : WireHeader.image.size ≤ bytes.length := by omega
    obtain ⟨wh, hwh⟩ := Option.isSome_iff_exists.mp (copyOut_isSome hsize)
    rw [hwh]
    exact parseFramed_isSome _ _

/-- **`parse_message`.** -/
def parseMessage (bytes : List UInt8) : ParsedMessage :=
  (parseChecked bytes).get (parseChecked_isSome bytes)

theorem parseChecked_eq (bytes : List UInt8) : parseChecked bytes = some (parseMessage bytes) :=
  (Option.some_get _).symm

/-! ## The header in front of a span -/

/-- The decoded header at the front of the bytes, if they are long enough for one. -/
def headerOf (bytes : List UInt8) : Option Header :=
  (copyOut WireHeader.image bytes).map decodeHeader

theorem headerOf_isSome {bytes : List UInt8} (h : 20 ≤ bytes.length) :
    ∃ hdr, headerOf bytes = some hdr := by
  obtain ⟨wh, hwh⟩ := Option.isSome_iff_exists.mp (copyOut_isSome (I := WireHeader.image) h)
  exact ⟨decodeHeader wh, by unfold headerOf; rw [hwh]; rfl⟩

theorem headerOf_append {bytes : List UInt8} (h : 20 ≤ bytes.length) (t : List UInt8) :
    headerOf (bytes ++ t) = headerOf bytes := by
  unfold headerOf
  rw [copyOut_append h]

theorem headerOf_take {bytes : List UInt8} {n : Nat} (h20 : 20 ≤ n) (hn : n ≤ bytes.length) :
    headerOf (bytes.take n) = headerOf bytes := by
  have hlen : (bytes.take n).length = n := List.length_take_of_le hn
  have happ := headerOf_append (show 20 ≤ (bytes.take n).length by omega) (bytes.drop n)
  rw [List.take_append_drop] at happ
  exact happ.symm

theorem parseMessage_short {bytes : List UInt8} (h : bytes.length < 20) :
    parseMessage bytes = { status := .truncated } := by
  have hc := parseChecked_eq bytes
  unfold parseChecked at hc
  rw [if_pos (show bytes.length < WireHeader.image.size from h)] at hc
  exact (Option.some.inj hc).symm

/-- Behind a decodable header, `parse_message` is `parseFramed`. -/
theorem parseFramed_eq {bytes : List UInt8} {hdr : Header} (hh : headerOf bytes = some hdr) :
    parseFramed hdr bytes = some (parseMessage bytes) := by
  have hc := parseChecked_eq bytes
  obtain ⟨wh, hwh, rfl⟩ := Option.map_eq_some_iff.mp hh
  have hlong : ¬ bytes.length < WireHeader.image.size := by
    intro hlt
    unfold copyOut at hwh
    rw [Image.get_eq_none hlt] at hwh
    cases hwh
  unfold parseChecked at hc
  rw [if_neg hlong, hwh] at hc
  exact hc

/-! ## What an accepted message looks like -/

/-- The `switch` fails only with these two codes. -/
theorem parseBody_error {hdr : Header} {bytes : List UInt8} {st : ParseStatus}
    (h : parseBody hdr bytes = some (.error st)) : st = .badSide ∨ st = .unknownType := by
  have hside : ∀ {raw : UInt8} {f : Side → ParsedPayload},
      (decodeSide raw).map f = .error st → st = .badSide := by
    intro raw f hraw
    unfold decodeSide at hraw
    split_ifs at hraw
    · cases hraw
    · cases hraw
    · cases hraw; rfl
  unfold parseBody at h
  cases ht : hdr.type <;> rw [ht] at h
  case other raw => cases h; exact Or.inr rfl
  case addOrder | modifyOrder | trade =>
    obtain ⟨w, -, hw⟩ := Option.map_eq_some_iff.mp h
    exact Or.inl (hside hw)
  all_goals
    obtain ⟨w, -, hw⟩ := Option.map_eq_some_iff.mp h
    cases hw

/-- The payload that the `switch` builds carries the header it was given. -/
theorem parseBody_header {hdr : Header} {bytes : List UInt8} {p : ParsedPayload} {n : Nat}
    (h : parseBody hdr bytes = some (.ok p)) :
    messageHeader { status := .ok, payload := p, consumed := n } = some hdr := by
  have hside : ∀ {raw : UInt8} {f : Side → ParsedPayload},
      (decodeSide raw).map f = .ok p → ∃ side, f side = p := by
    intro raw f hraw
    cases hd : decodeSide raw with
    | error st => rw [hd] at hraw; cases hraw
    | ok side => rw [hd] at hraw; exact ⟨side, Except.ok.inj hraw⟩
  unfold parseBody at h
  cases ht : hdr.type <;> rw [ht] at h
  case other raw => cases h
  case addOrder | modifyOrder | trade =>
    obtain ⟨w, -, hw⟩ := Option.map_eq_some_iff.mp h
    obtain ⟨side, rfl⟩ := hside hw
    rfl
  all_goals
    obtain ⟨w, -, hw⟩ := Option.map_eq_some_iff.mp h
    cases hw
    rfl

/-- Every check that an accepted message has passed. -/
theorem parseMessage_ok {bytes : List UInt8} (h : (parseMessage bytes).status = .ok) :
    ∃ hdr payload, headerOf bytes = some hdr ∧ hdr.length = wireLengthFor hdr.type ∧
      20 ≤ hdr.length.toNat ∧ hdr.length.toNat ≤ 44 ∧ hdr.length.toNat ≤ bytes.length ∧
      parseBody hdr bytes = some (.ok payload) ∧
      parseMessage bytes
        = { status := .ok, payload := payload, consumed := hdr.length.toNat } := by
  rcases Nat.lt_or_ge bytes.length 20 with hlt | hge
  · rw [parseMessage_short hlt] at h
    cases h
  obtain ⟨hdr, hh⟩ := headerOf_isSome hge
  have hf := parseFramed_eq hh
  unfold parseFramed at hf
  split_ifs at hf with h1 h2 h3 h4
  · rw [← Option.some.inj hf] at h; cases h
  · rw [← Option.some.inj hf] at h; cases h
  · rw [← Option.some.inj hf] at h; cases h
  · rw [← Option.some.inj hf] at h; cases h
  · obtain ⟨r, hr, hm⟩ := Option.map_eq_some_iff.mp hf
    simp only [WireHeader.image_size, kMaxMessageSize_eq] at h1
    cases r with
    | error st =>
      rw [← hm] at h
      rcases parseBody_error hr with rfl | rfl <;> cases h
    | ok payload =>
      exact ⟨hdr, payload, hh, not_ne_iff.mp h4, by omega, by omega, by omega, hr, hm.symm⟩

/-- The converse: passing the checks is enough. -/
theorem parseMessage_of_body {bytes : List UInt8} {hdr : Header} {payload : ParsedPayload}
    (hh : headerOf bytes = some hdr) (hlen : hdr.length = wireLengthFor hdr.type)
    (h20 : 20 ≤ hdr.length.toNat) (h44 : hdr.length.toNat ≤ 44)
    (hle : hdr.length.toNat ≤ bytes.length) (hbody : parseBody hdr bytes = some (.ok payload)) :
    parseMessage bytes
      = { status := .ok, payload := payload, consumed := hdr.length.toNat } := by
  have hf := parseFramed_eq hh
  have hne : wireLengthFor hdr.type ≠ 0 := by
    intro h0
    rw [hlen, h0] at h20
    exact absurd h20 (by decide)
  have hbad : ¬ (hdr.length.toNat < WireHeader.image.size ∨ kMaxMessageSize < hdr.length.toNat) := by
    simp only [WireHeader.image_size, kMaxMessageSize_eq]
    omega
  unfold parseFramed at hf
  rw [if_neg hbad, if_neg (by omega), if_neg hne, if_neg (not_ne_iff.mpr hlen), hbody] at hf
  exact (Option.some.inj hf).symm

/-- An accepted message has the length its header announces: 20 to 44 bytes, all inside the span. -/
theorem parseMessage_ok_bounds {bytes : List UInt8} (h : (parseMessage bytes).status = .ok) :
    20 ≤ (parseMessage bytes).consumed ∧ (parseMessage bytes).consumed ≤ 44 ∧
      (parseMessage bytes).consumed ≤ bytes.length := by
  obtain ⟨hdr, payload, -, -, h20, h44, hlen, -, heq⟩ := parseMessage_ok h
  rw [heq]
  exact ⟨h20, h44, hlen⟩

theorem parseMessage_ok_header {bytes : List UInt8} (h : (parseMessage bytes).status = .ok) :
    messageHeader (parseMessage bytes) = headerOf bytes := by
  obtain ⟨hdr, payload, hh, -, -, -, -, hbody, heq⟩ := parseMessage_ok h
  rw [heq, hh, parseBody_header hbody]

/-! ## Locality -/

/-- Once the span covers the announced length, what follows it is not looked at. -/
theorem parseFramed_append {hdr : Header} {bytes : List UInt8}
    (h : hdr.length.toNat ≤ bytes.length) (t : List UInt8) :
    parseFramed hdr (bytes ++ t) = parseFramed hdr bytes := by
  have hb : ¬ bytes.length < hdr.length.toNat := by omega
  have hbt : ¬ (bytes ++ t).length < hdr.length.toNat := by rw [List.length_append]; omega
  unfold parseFramed
  rw [if_neg hb, if_neg hbt]
  split_ifs with h1 h2 h3
  · rfl
  · rfl
  · rfl
  · rw [parseBody_append]
    rw [← not_ne_iff.mp h3]
    exact h

/-- A verdict other than "truncated" is final: more bytes do not change it. -/
theorem parseMessage_append {bytes : List UInt8} (h : (parseMessage bytes).status ≠ .truncated)
    (t : List UInt8) : parseMessage (bytes ++ t) = parseMessage bytes := by
  rcases Nat.lt_or_ge bytes.length 20 with hlt | hge
  · rw [parseMessage_short hlt] at h
    exact absurd rfl h
  obtain ⟨hdr, hh⟩ := headerOf_isSome hge
  have hf := parseFramed_eq hh
  have hft := parseFramed_eq ((headerOf_append hge t).trans hh)
  have hsame : parseFramed hdr (bytes ++ t) = parseFramed hdr bytes := by
    by_cases hbad : hdr.length.toNat < WireHeader.image.size ∨ kMaxMessageSize < hdr.length.toNat
    · unfold parseFramed
      rw [if_pos hbad, if_pos hbad]
    · apply parseFramed_append
      by_contra hshort
      unfold parseFramed at hf
      rw [if_neg hbad, if_pos (by omega)] at hf
      rw [← Option.some.inj hf] at h
      exact h rfl
  rw [hf, hft] at hsame
  exact Option.some.inj hsame

/-- The consumed bytes on their own parse to the same message. -/
theorem parseMessage_take {bytes : List UInt8} (h : (parseMessage bytes).status = .ok) :
    parseMessage (bytes.take (parseMessage bytes).consumed) = parseMessage bytes := by
  obtain ⟨hdr, payload, hh, hlen, h20, h44, hle, hbody, heq⟩ := parseMessage_ok h
  have hcons : (parseMessage bytes).consumed = hdr.length.toNat := by rw [heq]
  rw [hcons]
  have hsize : (bytes.take hdr.length.toNat).length = hdr.length.toNat :=
    List.length_take_of_le hle
  have hf := parseFramed_eq ((headerOf_take h20 hle).trans hh)
  have happ := parseFramed_append (show hdr.length.toNat ≤ (bytes.take hdr.length.toNat).length by
    omega) (bytes.drop hdr.length.toNat)
  rw [List.take_append_drop, hf, parseFramed_eq hh] at happ
  exact (Option.some.inj happ).symm

/-- Accepted bytes keep their meaning whatever follows the consumed part. -/
theorem parseMessage_take_append {bytes : List UInt8} (h : (parseMessage bytes).status = .ok)
    (t : List UInt8) :
    parseMessage (bytes.take (parseMessage bytes).consumed ++ t) = parseMessage bytes := by
  have htake := parseMessage_take h
  rw [parseMessage_append, htake]
  rw [htake, h]
  decide

end MarketDataPipeline.Wire
