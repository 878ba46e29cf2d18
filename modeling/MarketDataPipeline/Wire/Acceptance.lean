/-
# MarketDataPipeline.Wire.Acceptance — what `parse_message` accepts, read off the bytes.

The parser's checks are spread over a decoded header, a length table and a `switch`.  Here they are one
condition on raw bytes (`Acceptable`): the type byte, the two length bytes, the number of bytes, and the
side byte of the messages that have one.  `parseMessage_ok_iff` says that it is exactly what the checks
come to.
-/
import MarketDataPipeline.Wire.Parser

namespace MarketDataPipeline.Wire

open MarketDataPipeline.Library.ByteImage

/-! ## Fields of the raw bytes -/

/-- The type byte. -/
def typeByte (b : List UInt8) : UInt8 := b.getD 0 0

/-- The big-endian length field. -/
def lengthField (b : List UInt8) : Nat := (b.getD 2 0).toNat * 256 + (b.getD 3 0).toNat

/-- The side byte of an `AddOrder`, a `ModifyOrder` or a `Trade`. -/
def sideByte (b : List UInt8) : UInt8 := b.getD 32 0

/-- The messages with a side byte. -/
def MsgType.hasSide : MsgType → Bool
  | .addOrder | .modifyOrder | .trade => true
  | .deleteOrder | .heartbeat | .gapRequest | .gapResponse | .other _ => false

/-- What the bytes have to be. -/
structure Acceptable (b : List UInt8) : Prop where
  header : 20 ≤ b.length
  type : 1 ≤ typeByte b ∧ typeByte b ≤ 7
  length : lengthField b = (wireLengthFor (.ofByte (typeByte b))).toNat
  available : lengthField b ≤ b.length
  side : (MsgType.ofByte (typeByte b)).hasSide = true → sideByte b = 0 ∨ sideByte b = 1

/-- The length member, byte by byte. -/
theorem u16_put_be (v : UInt16) :
    Image.u16.put v
      = [UInt8.ofNat ((loadBe16 v).toNat / 256), UInt8.ofNat (loadBe16 v).toNat] := by
  rw [← storeBe16_loadBe16 v, storeBe16_put, loadBe16_storeBe16]
  simp [bigEndian, leDigits]

/-- The decoded header is that of the bytes. -/
theorem headerOf_bytes {b : List UInt8} {hdr : Header} (h : headerOf b = some hdr) :
    hdr.type = .ofByte (typeByte b) ∧ hdr.length.toNat = lengthField b := by
  obtain ⟨wh, hwh, rfl⟩ := Option.map_eq_some_iff.mp h
  obtain ⟨⟨w, t⟩, hget, rfl⟩ := Option.map_eq_some_iff.mp hwh
  rw [WireHeader.image.put_of_get hget]
  have hput : WireHeader.image.put w = [w.type, w.pad] ++ Image.u16.put w.length ++
      Image.u64.put w.seq ++ Image.u64.put w.tsNs := by
    simp [WireHeader.image, u8_put]
  have hlt := (loadBe16 w.length).toNat_lt
  rw [hput, u16_put_be]
  refine ⟨rfl, ?_⟩
  show (loadBe16 w.length).toNat = _
  simp only [lengthField, List.cons_append, List.nil_append, List.getD_cons_succ, List.getD_cons_zero,
    UInt8.toNat_ofNat']
  omega

/-- The side member of an order-shaped struct is the side byte. -/
theorem copyOut_side {b : List UInt8} {w : WireOrder} (h : copyOut WireOrder.image b = some w) :
    w.side = sideByte b := by
  obtain ⟨⟨w', t⟩, hget, rfl⟩ := Option.map_eq_some_iff.mp h
  rw [WireOrder.image.put_of_get hget]
  have hput : WireOrder.image.put w' = (WireHeader.image.put w'.hdr ++ Image.u64.put w'.id ++
      Image.u32.put w'.symbolId) ++ (w'.side :: ((Image.bytes 3).put w'.pad ++
      Image.u32.put w'.price ++ Image.u32.put w'.qty)) := by
    simp [WireOrder.image, u8_put]
  have hlen : (WireHeader.image.put w'.hdr ++ Image.u64.put w'.id ++
      Image.u32.put w'.symbolId).length = 32 := by
    simp [Image.put_length]
  unfold sideByte
  rw [hput, List.append_assoc, List.getD_append_right _ _ _ _ (Nat.le_of_eq hlen), hlen]
  rfl

/-! ## The checks -/

/-- A type with a length is one of the seven. -/
theorem wireLengthFor_ofByte (b : UInt8) :
    wireLengthFor (.ofByte b) ≠ 0 ↔ 1 ≤ b ∧ b ≤ 7 := by
  unfold MsgType.ofByte
  split_ifs with h1 h2 h3 h4 h5 h6 h7
  case neg =>
    refine iff_of_false (fun hne => hne rfl) ?_
    rintro ⟨hlo, hhi⟩
    rw [← UInt8.toNat_inj] at h1 h2 h3 h4 h5 h6 h7
    rw [UInt8.le_iff_toNat_le] at hlo hhi
    simp only [UInt8.reduceToNat] at h1 h2 h3 h4 h5 h6 h7 hlo hhi
    omega
  all_goals
    subst b
    exact iff_of_true (by decide) (by decide)

theorem wireLengthFor_bounds {type : MsgType} (h : wireLengthFor type ≠ 0) :
    20 ≤ (wireLengthFor type).toNat ∧ (wireLengthFor type).toNat ≤ 44 := by
  cases type with
  | other raw => exact absurd rfl h
  | addOrder | modifyOrder | deleteOrder | trade | heartbeat | gapRequest | gapResponse =>
    exact ⟨by decide, by decide⟩

theorem decodeSide_isOk {raw : UInt8} :
    (∃ side, decodeSide raw = .ok side) ↔ raw = 0 ∨ raw = 1 := by
  unfold decodeSide
  by_cases h0 : raw = 0
  · rw [if_pos (show raw = Side.buy.toByte from h0)]
    exact iff_of_true ⟨_, rfl⟩ (Or.inl h0)
  rw [if_neg (show ¬ raw = Side.buy.toByte from h0)]
  by_cases h1 : raw = 1
  · rw [if_pos (show raw = Side.sell.toByte from h1)]
    exact iff_of_true ⟨_, rfl⟩ (Or.inr h1)
  rw [if_neg (show ¬ raw = Side.sell.toByte from h1)]
  refine iff_of_false ?_ (fun h => h.elim h0 h1)
  rintro ⟨side, hside⟩
  cases hside

/-- The `switch` accepts an order-shaped message by its side byte. -/
theorem parseOrder_isOk {b : List UInt8} (hlen : 44 ≤ b.length)
    (make : WireOrder → Side → ParsedPayload) :
    (∃ payload, parseOrder b make = some (.ok payload)) ↔ sideByte b = 0 ∨ sideByte b = 1 := by
  obtain ⟨w, hw⟩ := Option.isSome_iff_exists.mp (copyOut_isSome (I := WireOrder.image) hlen)
  unfold parseOrder
  rw [hw, ← copyOut_side hw, ← decodeSide_isOk]
  cases hside : decodeSide w.side with
  | ok side => exact iff_of_true ⟨make w side, by simp [hside, Except.map]⟩ ⟨side, rfl⟩
  | error st =>
    refine iff_of_false ?_ ?_
    · rintro ⟨payload, hp⟩
      simp [hside, Except.map] at hp
    · rintro ⟨side, hs⟩
      cases hs

/-- The `switch` accepts every other message of the right length. -/
theorem parseBody_isOk {hdr : Header} {b : List UInt8} (hne : wireLengthFor hdr.type ≠ 0)
    (hlen : (wireLengthFor hdr.type).toNat ≤ b.length) :
    (∃ payload, parseBody hdr b = some (.ok payload)) ↔
      (hdr.type.hasSide = true → sideByte b = 0 ∨ sideByte b = 1) := by
  have hbody := parseBody_isSome hlen
  unfold parseBody at hbody ⊢
  cases ht : hdr.type with
  | other raw =>
    rw [ht] at hne
    exact absurd rfl hne
  | addOrder | modifyOrder | trade =>
    rw [ht] at hlen
    exact (parseOrder_isOk hlen _).trans ⟨fun hside _ => hside, fun hside => hside rfl⟩
  | deleteOrder | heartbeat | gapRequest | gapResponse =>
    rw [ht] at hbody
    obtain ⟨r, hr⟩ := Option.isSome_iff_exists.mp hbody
    refine iff_of_true ?_ (fun hside => by cases hside)
    obtain ⟨w, hw, -⟩ := Option.map_eq_some_iff.mp hr
    exact ⟨_, by dsimp only; rw [hw]; rfl⟩

/-- **`parse_message` accepts exactly the acceptable bytes.** -/
theorem parseMessage_ok_iff (b : List UInt8) : (parseMessage b).status = .ok ↔ Acceptable b := by
  constructor
  · intro h
    obtain ⟨hdr, payload, hh, hlen, h20, h44, hle, hbody, -⟩ := parseMessage_ok h
    obtain ⟨htype, hfield⟩ := headerOf_bytes hh
    have hne : wireLengthFor hdr.type ≠ 0 := by
      intro h0
      rw [hlen, h0] at h20
      exact absurd h20 (by decide)
    have hside := (parseBody_isOk hne (by rw [← hlen]; exact hle)).mp ⟨payload, hbody⟩
    rw [htype] at hne hlen hside
    exact ⟨by omega, (wireLengthFor_ofByte _).mp hne, by rw [← hfield, hlen], by omega, hside⟩
  · rintro ⟨h20, htype, hlen, hle, hside⟩
    obtain ⟨hdr, hh⟩ := headerOf_isSome h20
    obtain ⟨ht, hfield⟩ := headerOf_bytes hh
    rw [← ht] at hlen hside
    have hne : wireLengthFor hdr.type ≠ 0 := by
      rw [ht]
      exact (wireLengthFor_ofByte _).mpr htype
    have hbounds := wireLengthFor_bounds hne
    have hlength : hdr.length = wireLengthFor hdr.type := by
      apply UInt16.toNat_inj.mp
      rw [hfield, hlen]
    obtain ⟨payload, hbody⟩ := (parseBody_isOk hne (by omega)).mpr hside
    rw [parseMessage_of_body hh hlength (by omega) (by omega) (by omega) hbody]

end MarketDataPipeline.Wire
