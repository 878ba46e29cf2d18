/-
# MarketDataPipeline.Wire.RoundTrip — encoding and parsing are inverse over the whole format.

Encode, then parse: the message comes back with every field and the announced length, whatever the
struct held before and whatever bytes follow it (`parse_encodeOrder` and its siblings).  Parse, then
encode: the bytes come back, except that the padding, which the parser skips, is zero
(`reencode_of_ok`).

The two directions share one observation.  A packed struct and its memory determine each other
(`Image.get_put`, `Image.put_of_get`), so both reduce to statements about the struct's members, where
`loadBe*` and `storeBe*` cancel.
-/
import MarketDataPipeline.Wire.Parser

namespace MarketDataPipeline.Wire

open MarketDataPipeline.Library.ByteImage

/-! ## Calls of the encoders -/

/-- A call of one of the seven encoders: the struct it writes to, with whatever contents, and the
values it is given. -/
inductive EncodeCall where
  | add (out : WireAddOrder) (seq tsNs orderId : UInt64) (symbolId : UInt32) (side : Side)
      (price qty : UInt32)
  | modify (out : WireModifyOrder) (seq tsNs orderId : UInt64) (symbolId : UInt32) (side : Side)
      (price qty : UInt32)
  | delete (out : WireDeleteOrder) (seq tsNs orderId : UInt64) (symbolId : UInt32)
  | trade (out : WireTrade) (seq tsNs tradeId : UInt64) (symbolId : UInt32) (side : Side)
      (price qty : UInt32)
  | heartbeat (out : WireHeartbeat) (seq tsNs exchangeTsNs : UInt64)
  | gapRequest (out : WireGapRequest) (seq tsNs start stop : UInt64)
  | gapResponse (out : WireGapResponse) (seq tsNs start stop : UInt64) (payloadBytes : UInt32)

/-- The memory of the struct after the call. -/
def EncodeCall.bytes : EncodeCall → List UInt8
  | .add out seq tsNs orderId symbolId side price qty =>
      WireOrder.image.put (encodeAdd out seq tsNs orderId symbolId side price qty)
  | .modify out seq tsNs orderId symbolId side price qty =>
      WireOrder.image.put (encodeModify out seq tsNs orderId symbolId side price qty)
  | .delete out seq tsNs orderId symbolId =>
      WireDeleteOrder.image.put (encodeDelete out seq tsNs orderId symbolId)
  | .trade out seq tsNs tradeId symbolId side price qty =>
      WireOrder.image.put (encodeTrade out seq tsNs tradeId symbolId side price qty)
  | .heartbeat out seq tsNs exchangeTsNs =>
      WireHeartbeat.image.put (encodeHeartbeat out seq tsNs exchangeTsNs)
  | .gapRequest out seq tsNs start stop =>
      WireGapRequest.image.put (encodeGapRequest out seq tsNs start stop)
  | .gapResponse out seq tsNs start stop payloadBytes =>
      WireGapResponse.image.put (encodeGapResponse out seq tsNs start stop payloadBytes)

/-- The message that a receiver is meant to see. -/
def EncodeCall.payload : EncodeCall → ParsedPayload
  | .add _ seq tsNs orderId symbolId side price qty =>
      .addOrder ⟨⟨.addOrder, 44, seq, tsNs⟩, orderId, symbolId, side, price, qty⟩
  | .modify _ seq tsNs orderId symbolId side price qty =>
      .modifyOrder ⟨⟨.modifyOrder, 44, seq, tsNs⟩, orderId, symbolId, side, price, qty⟩
  | .delete _ seq tsNs orderId symbolId =>
      .deleteOrder ⟨⟨.deleteOrder, 36, seq, tsNs⟩, orderId, symbolId⟩
  | .trade _ seq tsNs tradeId symbolId side price qty =>
      .trade ⟨⟨.trade, 44, seq, tsNs⟩, tradeId, symbolId, side, price, qty⟩
  | .heartbeat _ seq tsNs exchangeTsNs =>
      .heartbeat ⟨⟨.heartbeat, 28, seq, tsNs⟩, exchangeTsNs⟩
  | .gapRequest _ seq tsNs start stop =>
      .gapRequest ⟨⟨.gapRequest, 36, seq, tsNs⟩, start, stop⟩
  | .gapResponse _ seq tsNs start stop payloadBytes =>
      .gapResponse ⟨⟨.gapResponse, 44, seq, tsNs⟩, start, stop, payloadBytes⟩

/-- The bytes on the wire: fixed offsets, every integer in network order, zero padding. -/
def EncodeCall.layout : EncodeCall → List UInt8
  | .add _ seq tsNs orderId symbolId side price qty =>
      headerLayout .addOrder seq tsNs ++ bigEndian 8 orderId.toNat ++ bigEndian 4 symbolId.toNat ++
        [side.toByte, 0, 0, 0] ++ bigEndian 4 price.toNat ++ bigEndian 4 qty.toNat
  | .modify _ seq tsNs orderId symbolId side price qty =>
      headerLayout .modifyOrder seq tsNs ++ bigEndian 8 orderId.toNat ++
        bigEndian 4 symbolId.toNat ++ [side.toByte, 0, 0, 0] ++ bigEndian 4 price.toNat ++
        bigEndian 4 qty.toNat
  | .delete _ seq tsNs orderId symbolId =>
      headerLayout .deleteOrder seq tsNs ++ bigEndian 8 orderId.toNat ++
        bigEndian 4 symbolId.toNat ++ [0, 0, 0, 0]
  | .trade _ seq tsNs tradeId symbolId side price qty =>
      headerLayout .trade seq tsNs ++ bigEndian 8 tradeId.toNat ++ bigEndian 4 symbolId.toNat ++
        [side.toByte, 0, 0, 0] ++ bigEndian 4 price.toNat ++ bigEndian 4 qty.toNat
  | .heartbeat _ seq tsNs exchangeTsNs =>
      headerLayout .heartbeat seq tsNs ++ bigEndian 8 exchangeTsNs.toNat
  | .gapRequest _ seq tsNs start stop =>
      headerLayout .gapRequest seq tsNs ++ bigEndian 8 start.toNat ++ bigEndian 8 stop.toNat
  | .gapResponse _ seq tsNs start stop payloadBytes =>
      headerLayout .gapResponse seq tsNs ++ bigEndian 8 start.toNat ++ bigEndian 8 stop.toNat ++
        bigEndian 4 payloadBytes.toNat ++ [0, 0, 0, 0]

theorem EncodeCall.bytes_eq_layout (c : EncodeCall) : c.bytes = c.layout := by
  cases c with
  | add out seq tsNs orderId symbolId side price qty => exact encodeOrder_put ..
  | modify out seq tsNs orderId symbolId side price qty => exact encodeOrder_put ..
  | delete out seq tsNs orderId symbolId => exact encodeDelete_put ..
  | trade out seq tsNs tradeId symbolId side price qty => exact encodeOrder_put ..
  | heartbeat out seq tsNs exchangeTsNs => exact encodeHeartbeat_put ..
  | gapRequest out seq tsNs start stop => exact encodeGapRequest_put ..
  | gapResponse out seq tsNs start stop payloadBytes => exact encodeGapResponse_put ..

/-! ## Encode, then parse -/

theorem copyOut_put {α : Type} (I : Image α) (w : α) (t : List UInt8) :
    copyOut I (I.put w ++ t) = some w := by
  unfold copyOut
  rw [I.get_put]
  rfl

theorem headerOf_put (wh : WireHeader) (t : List UInt8) :
    headerOf (WireHeader.image.put wh ++ t) = some (decodeHeader wh) := by
  unfold headerOf
  rw [copyOut_put]
  rfl

theorem decodeHeader_writeHeader (wh : WireHeader) {type : MsgType}
    (htype : MsgType.ofByte type.toByte = type) (seq tsNs : UInt64) :
    decodeHeader (writeHeader wh type seq tsNs) = ⟨type, wireLengthFor type, seq, tsNs⟩ := by
  unfold decodeHeader writeHeader
  simp [htype]

theorem decodeSide_toByte (side : Side) : decodeSide side.toByte = .ok side := by
  cases side <;> rfl

/-- **A struct whose header `write_header` wrote is accepted**, if the `switch` accepts its body. -/
theorem parseMessage_put {α : Type} {I : Image α} {w : α} (wh : WireHeader) {type : MsgType}
    {seq tsNs : UInt64} {rest : List UInt8} {payload : ParsedPayload}
    (htype : MsgType.ofByte type.toByte = type) (hsize : (wireLengthFor type).toNat = I.size)
    (h20 : 20 ≤ I.size) (h44 : I.size ≤ 44)
    (hput : I.put w = WireHeader.image.put (writeHeader wh type seq tsNs) ++ rest)
    (t : List UInt8)
    (hbody : parseBody ⟨type, wireLengthFor type, seq, tsNs⟩ (I.put w ++ t) = some (.ok payload)) :
    parseMessage (I.put w ++ t)
      = { status := .ok, payload := payload, consumed := (I.put w).length } := by
  have hh : headerOf (I.put w ++ t) = some ⟨type, wireLengthFor type, seq, tsNs⟩ := by
    rw [hput, List.append_assoc, headerOf_put, decodeHeader_writeHeader wh htype]
  have hlen := I.put_length w
  rw [parseMessage_of_body hh rfl (by rw [hsize]; exact h20) (by rw [hsize]; exact h44)
    (by rw [List.length_append, hsize]; omega) hbody, hsize, hlen]

/-- The three order-shaped encoders, for any way of building their message. -/
theorem parse_encodeOrder {type : MsgType} (htype : MsgType.ofByte type.toByte = type)
    (hsize : (wireLengthFor type).toNat = 44) (out : WireOrder) (seq tsNs id : UInt64)
    (symbolId : UInt32) (side : Side) (price qty : UInt32)
    (make : UInt64 → UInt32 → Side → UInt32 → UInt32 → ParsedPayload)
    (hswitch : ∀ bytes, parseBody ⟨type, wireLengthFor type, seq, tsNs⟩ bytes =
      parseOrder bytes fun w side =>
        make (loadBe64 w.id) (loadBe32 w.symbolId) side (loadBe32 w.price) (loadBe32 w.qty))
    (t : List UInt8) :
    parseMessage
        (WireOrder.image.put (encodeOrder type out seq tsNs id symbolId side price qty) ++ t)
      = { status := .ok, payload := make id symbolId side price qty, consumed := 44 } := by
  have hbody : parseBody ⟨type, wireLengthFor type, seq, tsNs⟩
      (WireOrder.image.put (encodeOrder type out seq tsNs id symbolId side price qty) ++ t)
      = some (.ok (make id symbolId side price qty)) := by
    rw [hswitch]
    unfold parseOrder encodeOrder
    rw [copyOut_put]
    simp [decodeSide_toByte, Except.map]
  rw [parseMessage_put out.hdr htype hsize (by decide) (by decide) rfl t hbody,
    WireOrder.image.put_length]
  rfl

theorem EncodeCall.parse_bytes (c : EncodeCall) (t : List UInt8) :
    parseMessage (c.bytes ++ t)
      = { status := .ok, payload := c.payload, consumed := c.bytes.length } := by
  cases c with
  | add out seq tsNs orderId symbolId side price qty =>
      unfold EncodeCall.bytes EncodeCall.payload encodeAdd
      rw [parse_encodeOrder rfl rfl out seq tsNs orderId symbolId side price qty
        (fun id symbolId side price qty => .addOrder ⟨⟨.addOrder, 44, seq, tsNs⟩, id, symbolId,
          side, price, qty⟩) (fun _ => rfl), WireOrder.image.put_length]
      rfl
  | modify out seq tsNs orderId symbolId side price qty =>
      unfold EncodeCall.bytes EncodeCall.payload encodeModify
      rw [parse_encodeOrder rfl rfl out seq tsNs orderId symbolId side price qty
        (fun id symbolId side price qty => .modifyOrder ⟨⟨.modifyOrder, 44, seq, tsNs⟩, id, symbolId,
          side, price, qty⟩) (fun _ => rfl), WireOrder.image.put_length]
      rfl
  | trade out seq tsNs tradeId symbolId side price qty =>
      unfold EncodeCall.bytes EncodeCall.payload encodeTrade
      rw [parse_encodeOrder rfl rfl out seq tsNs tradeId symbolId side price qty
        (fun id symbolId side price qty => .trade ⟨⟨.trade, 44, seq, tsNs⟩, id, symbolId, side,
          price, qty⟩) (fun _ => rfl), WireOrder.image.put_length]
      rfl
  | delete out seq tsNs orderId symbolId =>
      refine parseMessage_put out.hdr rfl rfl (by decide) (by decide) rfl t ?_
      unfold parseBody
      simp only [copyOut_put]
      simp [encodeDelete, EncodeCall.payload]
      rfl
  | heartbeat out seq tsNs exchangeTsNs =>
      refine parseMessage_put out.hdr rfl rfl (by decide) (by decide) rfl t ?_
      unfold parseBody
      simp only [copyOut_put]
      simp [encodeHeartbeat, EncodeCall.payload]
      rfl
  | gapRequest out seq tsNs start stop =>
      refine parseMessage_put out.hdr rfl rfl (by decide) (by decide) rfl t ?_
      unfold parseBody
      simp only [copyOut_put]
      simp [encodeGapRequest, EncodeCall.payload]
      rfl
  | gapResponse out seq tsNs start stop payloadBytes =>
      refine parseMessage_put out.hdr rfl rfl (by decide) (by decide) rfl t ?_
      unfold parseBody
      simp only [copyOut_put]
      simp [encodeGapResponse, EncodeCall.payload]
      rfl

/-! ## Padding -/

/-- The offsets that no field of the message occupies. -/
def isPadding : ParsedPayload → Nat → Bool
  | .addOrder _, i | .modifyOrder _, i | .trade _, i => decide (i = 1 ∨ 33 ≤ i ∧ i < 36)
  | .deleteOrder _, i => decide (i = 1 ∨ 32 ≤ i ∧ i < 36)
  | .gapResponse _, i => decide (i = 1 ∨ 40 ≤ i ∧ i < 44)
  | .heartbeat _, i | .gapRequest _, i | .monostate, i => decide (i = 1)

/-- The bytes from offset `i` on, with those at the offsets `pad` marks set to zero. -/
def zeroPadding (pad : Nat → Bool) : Nat → List UInt8 → List UInt8
  | _, [] => []
  | i, b :: bs => (if pad i then 0 else b) :: zeroPadding pad (i + 1) bs

theorem zeroPadding_append (pad : Nat → Bool) (a b : List UInt8) (i : Nat) :
    zeroPadding pad i (a ++ b) = zeroPadding pad i a ++ zeroPadding pad (i + a.length) b := by
  induction a generalizing i with
  | nil => rfl
  | cons x a ih =>
    simp only [List.cons_append, zeroPadding, List.length_cons]
    rw [ih, show i + 1 + a.length = i + (a.length + 1) by omega]

/-- A stretch of field bytes is left alone. -/
theorem zeroPadding_keep {pad : Nat → Bool} {a : List UInt8} {i : Nat}
    (h : ∀ j, j < a.length → pad (i + j) = false) : zeroPadding pad i a = a := by
  induction a generalizing i with
  | nil => rfl
  | cons x a ih =>
    have h0 := h 0 (by simp)
    have htail : ∀ j, j < a.length → pad (i + 1 + j) = false := by
      intro j hj
      rw [show i + 1 + j = i + (j + 1) by omega]
      exact h (j + 1) (by simpa using hj)
    simp only [Nat.add_zero] at h0
    simp only [zeroPadding, h0, ih htail]
    rfl

/-- A stretch of padding becomes zeros. -/
theorem zeroPadding_clear {pad : Nat → Bool} {a : List UInt8} {i : Nat}
    (h : ∀ j, j < a.length → pad (i + j) = true) :
    zeroPadding pad i a = List.replicate a.length 0 := by
  induction a generalizing i with
  | nil => rfl
  | cons x a ih =>
    have h0 := h 0 (by simp)
    have htail : ∀ j, j < a.length → pad (i + 1 + j) = true := by
      intro j hj
      rw [show i + 1 + j = i + (j + 1) by omega]
      exact h (j + 1) (by simpa using hj)
    simp only [Nat.add_zero] at h0
    simp only [zeroPadding, h0, ih htail, List.length_cons, List.replicate_succ]
    rfl

/-! ## Parse, then encode -/

/-- The parsed message written back with the encoder of its type. -/
def reencode : ParsedPayload → List UInt8
  | .monostate => []
  | .addOrder m => WireOrder.image.put
      (encodeAdd {} m.hdr.seq m.hdr.tsNs m.orderId m.symbolId m.side m.price m.qty)
  | .modifyOrder m => WireOrder.image.put
      (encodeModify {} m.hdr.seq m.hdr.tsNs m.orderId m.symbolId m.side m.price m.qty)
  | .deleteOrder m => WireDeleteOrder.image.put
      (encodeDelete {} m.hdr.seq m.hdr.tsNs m.orderId m.symbolId)
  | .trade m => WireOrder.image.put
      (encodeTrade {} m.hdr.seq m.hdr.tsNs m.tradeId m.symbolId m.side m.price m.qty)
  | .heartbeat m => WireHeartbeat.image.put
      (encodeHeartbeat {} m.hdr.seq m.hdr.tsNs m.exchangeTsNs)
  | .gapRequest m => WireGapRequest.image.put
      (encodeGapRequest {} m.hdr.seq m.hdr.tsNs m.startSeq m.endSeq)
  | .gapResponse m => WireGapResponse.image.put
      (encodeGapResponse {} m.hdr.seq m.hdr.tsNs m.startSeq m.endSeq m.payloadBytes)

/-- Writing a decoded header back restores it, except for the padding byte. -/
theorem writeHeader_decodeHeader (out wh : WireHeader)
    (hlen : (decodeHeader wh).length = wireLengthFor (decodeHeader wh).type) :
    writeHeader out (decodeHeader wh).type (decodeHeader wh).seq (decodeHeader wh).tsNs
      = { wh with pad := 0 } := by
  unfold writeHeader
  rw [← hlen]
  simp [decodeHeader, MsgType.toByte_ofByte]

theorem toByte_of_decodeSide {raw : UInt8} {side : Side} (h : decodeSide raw = .ok side) :
    side.toByte = raw := by
  unfold decodeSide at h
  split_ifs at h with h0 h1
  · cases h; exact h0.symm
  · cases h; exact h1.symm

/-- A struct that `copyOut` read is the one whose memory the span begins with. -/
theorem take_of_copyOut {α : Type} {I : Image α} {bytes : List UInt8} {w : α}
    (h : copyOut I bytes = some w) : bytes.take I.size = I.put w := by
  obtain ⟨⟨w', t⟩, hw, rfl⟩ := Option.map_eq_some_iff.mp h
  rw [I.put_of_get hw, List.take_left' (I.put_length w')]

/-- The header that was decoded is the header member of the struct that was copied. -/
theorem header_of_copyOut {α : Type} {I : Image α} {bytes : List UInt8} {w : α} {wh : WireHeader}
    {rest : List UInt8} {hdr : Header} (h : copyOut I bytes = some w)
    (hput : I.put w = WireHeader.image.put wh ++ rest) (hh : headerOf bytes = some hdr) :
    hdr = decodeHeader wh := by
  obtain ⟨⟨w', t⟩, hw, rfl⟩ := Option.map_eq_some_iff.mp h
  rw [I.put_of_get hw, hput, List.append_assoc, headerOf_put] at hh
  exact (Option.some.inj hh).symm

/-- The header that an encoder writes for a decoded message is the one in front of the copied struct, with
the padding byte cleared. -/
theorem written_header {α : Type} {I : Image α} {bytes : List UInt8} {w : α} {wh : WireHeader}
    {rest : List UInt8} {hdr : Header} (h : copyOut I bytes = some w)
    (hput : I.put w = WireHeader.image.put wh ++ rest) (hh : headerOf bytes = some hdr)
    (hlen : hdr.length = wireLengthFor hdr.type) (out : WireHeader) :
    writeHeader out hdr.type hdr.seq hdr.tsNs = { wh with pad := 0 } := by
  obtain rfl : hdr = decodeHeader wh := header_of_copyOut h hput hh
  exact writeHeader_decodeHeader out wh hlen

/-- The header bytes with the padding byte cleared. -/
theorem zeroPadding_header {pad : Nat → Bool} (h1 : pad 1 = true)
    (hfield : ∀ i, i < 20 → i ≠ 1 → pad i = false) (wh : WireHeader) :
    zeroPadding pad 0 (WireHeader.image.put wh) = WireHeader.image.put { wh with pad := 0 } := by
  unfold WireHeader.image
  simp only [Image.iso_put, Image.prod_put, zeroPadding_append, Image.put_length, Image.u8_size,
    Image.u16_size, Image.u64_size, Equiv.coe_fn_symm_mk]
  rw [zeroPadding_keep (a := Image.u8.put wh.type), zeroPadding_clear (a := Image.u8.put wh.pad),
    zeroPadding_keep (a := Image.u16.put wh.length), zeroPadding_keep (a := Image.u64.put wh.seq),
    zeroPadding_keep (a := Image.u64.put wh.tsNs)]
  · simp [u8_put]
  all_goals
    intro j hj
    simp only [Image.put_length, Image.u8_size, Image.u16_size, Image.u64_size] at hj
  · exact hfield _ (by omega) (by omega)
  · exact hfield _ (by omega) (by omega)
  · exact hfield _ (by omega) (by omega)
  · rw [show 0 + 1 + j = 1 by omega]; exact h1
  · exact hfield _ (by omega) (by omega)

theorem zeroPadding_order (w : WireOrder) :
    zeroPadding (fun i => decide (i = 1 ∨ 33 ≤ i ∧ i < 36)) 0 (WireOrder.image.put w) =
      WireOrder.image.put
        { w with hdr := { w.hdr with pad := 0 }, pad := Vector.replicate 3 0 } := by
  unfold WireOrder.image
  simp only [Image.iso_put, Image.prod_put, zeroPadding_append, Image.put_length, Image.u8_size,
    Image.u32_size, Image.u64_size, Image.bytes_size, WireHeader.image_size, Equiv.coe_fn_symm_mk]
  rw [zeroPadding_header (by decide) (fun i hi h1 => by simp; omega),
    zeroPadding_keep (a := Image.u64.put w.id), zeroPadding_keep (a := Image.u32.put w.symbolId),
    zeroPadding_keep (a := Image.u8.put w.side), zeroPadding_clear (a := (Image.bytes 3).put w.pad),
    zeroPadding_keep (a := Image.u32.put w.price), zeroPadding_keep (a := Image.u32.put w.qty)]
  · simp [Image.bytes]
  all_goals
    intro j hj
    simp only [Image.put_length, Image.u8_size, Image.u32_size, Image.u64_size,
      Image.bytes_size] at hj
    simp
    omega

theorem zeroPadding_delete (w : WireDeleteOrder) :
    zeroPadding (fun i => decide (i = 1 ∨ 32 ≤ i ∧ i < 36)) 0 (WireDeleteOrder.image.put w) =
      WireDeleteOrder.image.put
        { w with hdr := { w.hdr with pad := 0 }, pad := Vector.replicate 4 0 } := by
  unfold WireDeleteOrder.image
  simp only [Image.iso_put, Image.prod_put, zeroPadding_append, Image.put_length,
    Image.u32_size, Image.u64_size, WireHeader.image_size, Equiv.coe_fn_symm_mk]
  rw [zeroPadding_header (by decide) (fun i hi h1 => by simp; omega),
    zeroPadding_keep (a := Image.u64.put w.orderId),
    zeroPadding_keep (a := Image.u32.put w.symbolId),
    zeroPadding_clear (a := (Image.bytes 4).put w.pad)]
  · simp [Image.bytes]
  all_goals
    intro j hj
    simp only [Image.put_length, Image.u32_size, Image.u64_size, Image.bytes_size] at hj
    simp
    omega

theorem zeroPadding_heartbeat (w : WireHeartbeat) :
    zeroPadding (fun i => decide (i = 1)) 0 (WireHeartbeat.image.put w) =
      WireHeartbeat.image.put { w with hdr := { w.hdr with pad := 0 } } := by
  unfold WireHeartbeat.image
  simp only [Image.iso_put, Image.prod_put, zeroPadding_append, Image.put_length,
    WireHeader.image_size, Equiv.coe_fn_symm_mk]
  rw [zeroPadding_header (by decide) (fun i hi h1 => by simpa using h1),
    zeroPadding_keep (a := Image.u64.put w.exchangeTsNs)]
  intro j hj
  simp
  omega

theorem zeroPadding_gapRequest (w : WireGapRequest) :
    zeroPadding (fun i => decide (i = 1)) 0 (WireGapRequest.image.put w) =
      WireGapRequest.image.put { w with hdr := { w.hdr with pad := 0 } } := by
  unfold WireGapRequest.image
  simp only [Image.iso_put, Image.prod_put, zeroPadding_append, Image.put_length, Image.u64_size,
    WireHeader.image_size, Equiv.coe_fn_symm_mk]
  rw [zeroPadding_header (by decide) (fun i hi h1 => by simpa using h1),
    zeroPadding_keep (a := Image.u64.put w.startSeq), zeroPadding_keep (a := Image.u64.put w.endSeq)]
  all_goals
    intro j hj
    simp
    omega

theorem zeroPadding_gapResponse (w : WireGapResponse) :
    zeroPadding (fun i => decide (i = 1 ∨ 40 ≤ i ∧ i < 44)) 0 (WireGapResponse.image.put w) =
      WireGapResponse.image.put { w with hdr := { w.hdr with pad := 0 }, pad := 0 } := by
  unfold WireGapResponse.image
  simp only [Image.iso_put, Image.prod_put, zeroPadding_append, Image.put_length, Image.u32_size,
    Image.u64_size, WireHeader.image_size, Equiv.coe_fn_symm_mk]
  rw [zeroPadding_header (by decide) (fun i hi h1 => by simp; omega),
    zeroPadding_keep (a := Image.u64.put w.startSeq), zeroPadding_keep (a := Image.u64.put w.endSeq),
    zeroPadding_keep (a := Image.u32.put w.payloadBytes),
    zeroPadding_clear (a := Image.u32.put w.pad)]
  · simp only [Image.put_length]; rfl
  all_goals
    intro j hj
    simp only [Image.put_length, Image.u32_size, Image.u64_size] at hj
    simp
    omega

/-- The order-shaped case of `reencode_of_ok`, for the three types that share the struct. -/
theorem reencode_order {hdr : Header} {bytes : List UInt8} {w : WireOrder} {side : Side}
    (hh : headerOf bytes = some hdr) (hlen : hdr.length = wireLengthFor hdr.type)
    (hw : copyOut WireOrder.image bytes = some w) (hside : decodeSide w.side = .ok side) :
    WireOrder.image.put (encodeOrder hdr.type {} hdr.seq hdr.tsNs (loadBe64 w.id)
        (loadBe32 w.symbolId) side (loadBe32 w.price) (loadBe32 w.qty)) =
      zeroPadding (fun i => decide (i = 1 ∨ 33 ≤ i ∧ i < 36)) 0
        (bytes.take WireOrder.image.size) := by
  have hhdr : ∀ out, writeHeader out hdr.type hdr.seq hdr.tsNs = { w.hdr with pad := 0 } :=
    written_header hw rfl hh hlen
  rw [take_of_copyOut hw, zeroPadding_order]
  unfold encodeOrder
  rw [hhdr, toByte_of_decodeSide hside]
  simp

/-- **Parse, then encode.** Writing the parsed message back gives the consumed bytes with their
padding cleared. -/
theorem reencode_of_ok {bytes : List UInt8} (h : (parseMessage bytes).status = .ok) :
    reencode (parseMessage bytes).payload =
      zeroPadding (isPadding (parseMessage bytes).payload) 0
        (bytes.take (parseMessage bytes).consumed) := by
  obtain ⟨hdr, payload, hh, hlen, -, -, -, hbody, heq⟩ := parseMessage_ok h
  rw [heq]
  simp only
  unfold parseBody at hbody
  cases ht : hdr.type <;> rw [ht] at hbody
  case other raw => cases hbody
  case addOrder | modifyOrder | trade =>
    obtain ⟨w, hw, hmap⟩ := Option.map_eq_some_iff.mp hbody
    cases hs : decodeSide w.side with
    | error st => rw [hs] at hmap; cases hmap
    | ok side =>
      rw [hs] at hmap
      cases hmap
      have hre := reencode_order hh hlen hw hs
      rw [hlen, ht]
      rw [ht] at hre
      exact hre
  case deleteOrder =>
    obtain ⟨w, hw, hmap⟩ := Option.map_eq_some_iff.mp hbody
    cases hmap
    have hhdr : writeHeader {} hdr.type hdr.seq hdr.tsNs = { w.hdr with pad := 0 } :=
      written_header hw rfl hh hlen {}
    rw [hlen, ht]
    rw [ht] at hhdr
    show _ = zeroPadding (fun i => decide (i = 1 ∨ 32 ≤ i ∧ i < 36)) 0
      (bytes.take WireDeleteOrder.image.size)
    rw [take_of_copyOut hw, zeroPadding_delete]
    simp [reencode, encodeDelete, hhdr]
  case heartbeat =>
    obtain ⟨w, hw, hmap⟩ := Option.map_eq_some_iff.mp hbody
    cases hmap
    have hhdr : writeHeader {} hdr.type hdr.seq hdr.tsNs = { w.hdr with pad := 0 } :=
      written_header hw rfl hh hlen {}
    rw [hlen, ht]
    rw [ht] at hhdr
    show _ = zeroPadding (fun i => decide (i = 1)) 0 (bytes.take WireHeartbeat.image.size)
    rw [take_of_copyOut hw, zeroPadding_heartbeat]
    simp [reencode, encodeHeartbeat, hhdr]
  case gapRequest =>
    obtain ⟨w, hw, hmap⟩ := Option.map_eq_some_iff.mp hbody
    cases hmap
    have hhdr : writeHeader {} hdr.type hdr.seq hdr.tsNs = { w.hdr with pad := 0 } :=
      written_header hw rfl hh hlen {}
    rw [hlen, ht]
    rw [ht] at hhdr
    show _ = zeroPadding (fun i => decide (i = 1)) 0 (bytes.take WireGapRequest.image.size)
    rw [take_of_copyOut hw, zeroPadding_gapRequest]
    simp [reencode, encodeGapRequest, hhdr]
  case gapResponse =>
    obtain ⟨w, hw, hmap⟩ := Option.map_eq_some_iff.mp hbody
    cases hmap
    have hhdr : writeHeader {} hdr.type hdr.seq hdr.tsNs = { w.hdr with pad := 0 } :=
      written_header hw rfl hh hlen {}
    rw [hlen, ht]
    rw [ht] at hhdr
    show _ = zeroPadding (fun i => decide (i = 1 ∨ 40 ≤ i ∧ i < 44)) 0
      (bytes.take WireGapResponse.image.size)
    rw [take_of_copyOut hw, zeroPadding_gapResponse]
    simp [reencode, encodeGapResponse, hhdr]

/-! ## The format -/

/-- **The wire format round-trips.** Every call of an encoder is parsed back to the message it was
given, from bytes that hold its integers in network order, whatever follows them; and every accepted
byte string is, up to its padding, what the encoder of its type writes for the parsed message. -/
theorem wire_round_trip :
    (∀ (c : EncodeCall) (t : List UInt8),
      parseMessage (c.bytes ++ t)
          = { status := .ok, payload := c.payload, consumed := c.bytes.length } ∧
        c.bytes = c.layout) ∧
    ∀ b : List UInt8, (parseMessage b).status = .ok →
      reencode (parseMessage b).payload =
        zeroPadding (isPadding (parseMessage b).payload) 0 (b.take (parseMessage b).consumed) :=
  ⟨fun c t => ⟨c.parse_bytes t, c.bytes_eq_layout⟩, fun _ h => reencode_of_ok h⟩

/-- A heartbeat with dirty padding and a trailing byte. -/
theorem wire_round_trip_heartbeat :
    (parseMessage ([5, 9] ++ bigEndian 2 28 ++ bigEndian 8 7 ++ bigEndian 8 8 ++ bigEndian 8 9 ++
      [255])).status = .ok ∧
    reencode (.heartbeat ⟨⟨.heartbeat, 28, 7, 8⟩, 9⟩) =
      [5, 0] ++ bigEndian 2 28 ++ bigEndian 8 7 ++ bigEndian 8 8 ++ bigEndian 8 9 := by
  have hok : (parseMessage ([5, 9] ++ bigEndian 2 28 ++ bigEndian 8 7 ++ bigEndian 8 8 ++
      bigEndian 8 9 ++ [255])).status = .ok := by decide +kernel
  refine ⟨hok, ?_⟩
  have hre := wire_round_trip.2 _ hok
  exact hre

end MarketDataPipeline.Wire
