/-
# MarketDataPipeline.Wire.Protocol — the packed messages of `protocol.hpp`.

A `Wire*` record is the packed C++ struct: its integer members hold the raw host words, and its
`image` is the struct's memory on a little-endian host (`#pragma pack(1)`, so members follow each
other without gaps).  `sizeof(WireX)` is `WireX.image.size`; the `static_assert`s of the source are
the `image_size` lemmas.  The decoded records (`AddOrder`, …) hold values.

`encode_*` takes the struct it fills by reference; here it takes the old struct and returns the new
one, member by member in the source's order.  Every member is assigned, so the old contents never
show (`encodeOrder_put` and its siblings give the bytes without mentioning them).
-/
import MarketDataPipeline.Wire.Bytes

namespace MarketDataPipeline.Wire

open MarketDataPipeline.Library.ByteImage

/-! ## Enumerations -/

/-- `enum class MsgType : uint8_t`.  A cast from a byte may produce a value that is none of the
enumerators; such a value is `other`. -/
inductive MsgType where
  | addOrder
  | modifyOrder
  | deleteOrder
  | trade
  | heartbeat
  | gapRequest
  | gapResponse
  | other (raw : UInt8)
  deriving DecidableEq, Repr

/-- `static_cast<MsgType>(byte)`. -/
def MsgType.ofByte (b : UInt8) : MsgType :=
  if b = 1 then .addOrder
  else if b = 2 then .modifyOrder
  else if b = 3 then .deleteOrder
  else if b = 4 then .trade
  else if b = 5 then .heartbeat
  else if b = 6 then .gapRequest
  else if b = 7 then .gapResponse
  else .other b

/-- `static_cast<uint8_t>(type)`. -/
def MsgType.toByte : MsgType → UInt8
  | .addOrder => 1
  | .modifyOrder => 2
  | .deleteOrder => 3
  | .trade => 4
  | .heartbeat => 5
  | .gapRequest => 6
  | .gapResponse => 7
  | .other raw => raw

theorem MsgType.toByte_ofByte (b : UInt8) : (MsgType.ofByte b).toByte = b := by
  unfold MsgType.ofByte
  repeat' split
  all_goals first | (next h => exact h.symm) | rfl

/-- `enum class Side : uint8_t`. -/
inductive Side where
  | buy
  | sell
  deriving DecidableEq, Repr

/-- `static_cast<uint8_t>(side)`. -/
def Side.toByte : Side → UInt8
  | .buy => 0
  | .sell => 1

/-! ## Packed structs and their memory -/

structure WireHeader where
  type : UInt8 := 0
  pad : UInt8 := 0
  length : UInt16 := 0
  seq : UInt64 := 0
  tsNs : UInt64 := 0
  deriving DecidableEq, Repr

/-- The struct that `AddOrder`, `ModifyOrder` and `Trade` messages share, up to the name of the
identifier (`order_id` or `trade_id`). -/
structure WireOrder where
  hdr : WireHeader := {}
  id : UInt64 := 0
  symbolId : UInt32 := 0
  side : UInt8 := 0
  pad : Vector UInt8 3 := Vector.replicate 3 0
  price : UInt32 := 0
  qty : UInt32 := 0
  deriving DecidableEq, Repr

abbrev WireAddOrder := WireOrder
abbrev WireModifyOrder := WireOrder
abbrev WireTrade := WireOrder

structure WireDeleteOrder where
  hdr : WireHeader := {}
  orderId : UInt64 := 0
  symbolId : UInt32 := 0
  pad : Vector UInt8 4 := Vector.replicate 4 0
  deriving DecidableEq, Repr

structure WireHeartbeat where
  hdr : WireHeader := {}
  exchangeTsNs : UInt64 := 0
  deriving DecidableEq, Repr

structure WireGapRequest where
  hdr : WireHeader := {}
  startSeq : UInt64 := 0
  endSeq : UInt64 := 0
  deriving DecidableEq, Repr

structure WireGapResponse where
  hdr : WireHeader := {}
  startSeq : UInt64 := 0
  endSeq : UInt64 := 0
  payloadBytes : UInt32 := 0
  pad : UInt32 := 0
  deriving DecidableEq, Repr

open Image in
def WireHeader.image : Image WireHeader :=
  (u8.prod (u8.prod (u16.prod (u64.prod u64)))).iso
    { toFun := fun ⟨type, pad, length, seq, tsNs⟩ => ⟨type, pad, length, seq, tsNs⟩
      invFun := fun ⟨type, pad, length, seq, tsNs⟩ => ⟨type, pad, length, seq, tsNs⟩
      left_inv := fun _ => rfl
      right_inv := fun _ => rfl }

open Image in
def WireOrder.image : Image WireOrder :=
  (WireHeader.image.prod (u64.prod (u32.prod (u8.prod ((bytes 3).prod (u32.prod u32)))))).iso
    { toFun := fun ⟨hdr, id, symbolId, side, pad, price, qty⟩ =>
        ⟨hdr, id, symbolId, side, pad, price, qty⟩
      invFun := fun ⟨hdr, id, symbolId, side, pad, price, qty⟩ =>
        ⟨hdr, id, symbolId, side, pad, price, qty⟩
      left_inv := fun _ => rfl
      right_inv := fun _ => rfl }

open Image in
def WireDeleteOrder.image : Image WireDeleteOrder :=
  (WireHeader.image.prod (u64.prod (u32.prod (bytes 4)))).iso
    { toFun := fun ⟨hdr, orderId, symbolId, pad⟩ => ⟨hdr, orderId, symbolId, pad⟩
      invFun := fun ⟨hdr, orderId, symbolId, pad⟩ => ⟨hdr, orderId, symbolId, pad⟩
      left_inv := fun _ => rfl
      right_inv := fun _ => rfl }

open Image in
def WireHeartbeat.image : Image WireHeartbeat :=
  (WireHeader.image.prod u64).iso
    { toFun := fun ⟨hdr, exchangeTsNs⟩ => ⟨hdr, exchangeTsNs⟩
      invFun := fun ⟨hdr, exchangeTsNs⟩ => ⟨hdr, exchangeTsNs⟩
      left_inv := fun _ => rfl
      right_inv := fun _ => rfl }

open Image in
def WireGapRequest.image : Image WireGapRequest :=
  (WireHeader.image.prod (u64.prod u64)).iso
    { toFun := fun ⟨hdr, startSeq, endSeq⟩ => ⟨hdr, startSeq, endSeq⟩
      invFun := fun ⟨hdr, startSeq, endSeq⟩ => ⟨hdr, startSeq, endSeq⟩
      left_inv := fun _ => rfl
      right_inv := fun _ => rfl }

open Image in
def WireGapResponse.image : Image WireGapResponse :=
  (WireHeader.image.prod (u64.prod (u64.prod (u32.prod u32)))).iso
    { toFun := fun ⟨hdr, startSeq, endSeq, payloadBytes, pad⟩ =>
        ⟨hdr, startSeq, endSeq, payloadBytes, pad⟩
      invFun := fun ⟨hdr, startSeq, endSeq, payloadBytes, pad⟩ =>
        ⟨hdr, startSeq, endSeq, payloadBytes, pad⟩
      left_inv := fun _ => rfl
      right_inv := fun _ => rfl }

@[simp] theorem WireHeader.image_size : WireHeader.image.size = 20 := rfl
@[simp] theorem WireOrder.image_size : WireOrder.image.size = 44 := rfl
@[simp] theorem WireDeleteOrder.image_size : WireDeleteOrder.image.size = 36 := rfl
@[simp] theorem WireHeartbeat.image_size : WireHeartbeat.image.size = 28 := rfl
@[simp] theorem WireGapRequest.image_size : WireGapRequest.image.size = 36 := rfl
@[simp] theorem WireGapResponse.image_size : WireGapResponse.image.size = 44 := rfl

/-- `kMaxMessageSize = sizeof(WireAddOrder)`. -/
def kMaxMessageSize : Nat := WireOrder.image.size

@[simp] theorem kMaxMessageSize_eq : kMaxMessageSize = 44 := rfl

/-! ## Decoded messages -/

structure Header where
  type : MsgType
  length : UInt16
  seq : UInt64
  tsNs : UInt64
  deriving DecidableEq, Repr

structure AddOrder where
  hdr : Header
  orderId : UInt64
  symbolId : UInt32
  side : Side
  price : UInt32
  qty : UInt32
  deriving DecidableEq, Repr

structure ModifyOrder where
  hdr : Header
  orderId : UInt64
  symbolId : UInt32
  side : Side
  price : UInt32
  qty : UInt32
  deriving DecidableEq, Repr

structure DeleteOrder where
  hdr : Header
  orderId : UInt64
  symbolId : UInt32
  deriving DecidableEq, Repr

structure Trade where
  hdr : Header
  tradeId : UInt64
  symbolId : UInt32
  side : Side
  price : UInt32
  qty : UInt32
  deriving DecidableEq, Repr

structure Heartbeat where
  hdr : Header
  exchangeTsNs : UInt64
  deriving DecidableEq, Repr

structure GapRequest where
  hdr : Header
  startSeq : UInt64
  endSeq : UInt64
  deriving DecidableEq, Repr

structure GapResponse where
  hdr : Header
  startSeq : UInt64
  endSeq : UInt64
  payloadBytes : UInt32
  deriving DecidableEq, Repr

/-! ## Headers -/

/-- `wire_length_for`: the size of the struct of a message type, `0` for a type that has none. -/
def wireLengthFor : MsgType → UInt16
  | .addOrder => UInt16.ofNat WireOrder.image.size
  | .modifyOrder => UInt16.ofNat WireOrder.image.size
  | .deleteOrder => UInt16.ofNat WireDeleteOrder.image.size
  | .trade => UInt16.ofNat WireOrder.image.size
  | .heartbeat => UInt16.ofNat WireHeartbeat.image.size
  | .gapRequest => UInt16.ofNat WireGapRequest.image.size
  | .gapResponse => UInt16.ofNat WireGapResponse.image.size
  | .other _ => 0

def writeHeader (_wh : WireHeader) (type : MsgType) (seq tsNs : UInt64) : WireHeader where
  type := type.toByte
  pad := 0
  length := storeBe16 (wireLengthFor type)
  seq := storeBe64 seq
  tsNs := storeBe64 tsNs

def decodeHeader (wh : WireHeader) : Header where
  type := MsgType.ofByte wh.type
  length := loadBe16 wh.length
  seq := loadBe64 wh.seq
  tsNs := loadBe64 wh.tsNs

/-! ## Encoders -/

/-- The body that `encode_add`, `encode_modify` and `encode_trade` share. -/
def encodeOrder (type : MsgType) (out : WireOrder) (seq tsNs id : UInt64) (symbolId : UInt32)
    (side : Side) (price qty : UInt32) : WireOrder where
  hdr := writeHeader out.hdr type seq tsNs
  id := storeBe64 id
  symbolId := storeBe32 symbolId
  side := side.toByte
  pad := Vector.replicate 3 0
  price := storeBe32 price
  qty := storeBe32 qty

def encodeAdd (out : WireAddOrder) (seq tsNs orderId : UInt64) (symbolId : UInt32) (side : Side)
    (price qty : UInt32) : WireAddOrder :=
  encodeOrder .addOrder out seq tsNs orderId symbolId side price qty

def encodeModify (out : WireModifyOrder) (seq tsNs orderId : UInt64) (symbolId : UInt32)
    (side : Side) (price qty : UInt32) : WireModifyOrder :=
  encodeOrder .modifyOrder out seq tsNs orderId symbolId side price qty

def encodeDelete (out : WireDeleteOrder) (seq tsNs orderId : UInt64) (symbolId : UInt32) :
    WireDeleteOrder where
  hdr := writeHeader out.hdr .deleteOrder seq tsNs
  orderId := storeBe64 orderId
  symbolId := storeBe32 symbolId
  pad := Vector.replicate 4 0

def encodeTrade (out : WireTrade) (seq tsNs tradeId : UInt64) (symbolId : UInt32) (side : Side)
    (price qty : UInt32) : WireTrade :=
  encodeOrder .trade out seq tsNs tradeId symbolId side price qty

def encodeHeartbeat (out : WireHeartbeat) (seq tsNs exchangeTsNs : UInt64) : WireHeartbeat where
  hdr := writeHeader out.hdr .heartbeat seq tsNs
  exchangeTsNs := storeBe64 exchangeTsNs

def encodeGapRequest (out : WireGapRequest) (seq tsNs start stop : UInt64) : WireGapRequest where
  hdr := writeHeader out.hdr .gapRequest seq tsNs
  startSeq := storeBe64 start
  endSeq := storeBe64 stop

def encodeGapResponse (out : WireGapResponse) (seq tsNs start stop : UInt64)
    (payloadBytes : UInt32) : WireGapResponse where
  hdr := writeHeader out.hdr .gapResponse seq tsNs
  startSeq := storeBe64 start
  endSeq := storeBe64 stop
  payloadBytes := storeBe32 payloadBytes
  pad := 0

/-! ## The bytes an encoder produces -/

/-- The twenty header bytes in network order. -/
def headerLayout (type : MsgType) (seq tsNs : UInt64) : List UInt8 :=
  [type.toByte, 0] ++ bigEndian 2 (wireLengthFor type).toNat ++ bigEndian 8 seq.toNat ++
    bigEndian 8 tsNs.toNat

theorem u8_put (b : UInt8) : Image.u8.put b = [b] := by
  show leDigits 1 b.toNat = [b]
  simp [leDigits]

theorem writeHeader_put (wh : WireHeader) (type : MsgType) (seq tsNs : UInt64) :
    WireHeader.image.put (writeHeader wh type seq tsNs) = headerLayout type seq tsNs := by
  unfold WireHeader.image writeHeader headerLayout
  simp [u8_put, storeBe16_put, storeBe64_put]

theorem encodeOrder_put (type : MsgType) (out : WireOrder) (seq tsNs id : UInt64)
    (symbolId : UInt32) (side : Side) (price qty : UInt32) :
    WireOrder.image.put (encodeOrder type out seq tsNs id symbolId side price qty) =
      headerLayout type seq tsNs ++ bigEndian 8 id.toNat ++ bigEndian 4 symbolId.toNat ++
        [side.toByte, 0, 0, 0] ++ bigEndian 4 price.toNat ++ bigEndian 4 qty.toNat := by
  unfold WireOrder.image encodeOrder
  simp [u8_put, storeBe32_put, storeBe64_put, writeHeader_put, Image.bytes]

theorem encodeDelete_put (out : WireDeleteOrder) (seq tsNs orderId : UInt64) (symbolId : UInt32) :
    WireDeleteOrder.image.put (encodeDelete out seq tsNs orderId symbolId) =
      headerLayout .deleteOrder seq tsNs ++ bigEndian 8 orderId.toNat ++
        bigEndian 4 symbolId.toNat ++ [0, 0, 0, 0] := by
  unfold WireDeleteOrder.image encodeDelete
  simp [storeBe32_put, storeBe64_put, writeHeader_put, Image.bytes]

theorem encodeHeartbeat_put (out : WireHeartbeat) (seq tsNs exchangeTsNs : UInt64) :
    WireHeartbeat.image.put (encodeHeartbeat out seq tsNs exchangeTsNs) =
      headerLayout .heartbeat seq tsNs ++ bigEndian 8 exchangeTsNs.toNat := by
  unfold WireHeartbeat.image encodeHeartbeat
  simp [storeBe64_put, writeHeader_put]

theorem encodeGapRequest_put (out : WireGapRequest) (seq tsNs start stop : UInt64) :
    WireGapRequest.image.put (encodeGapRequest out seq tsNs start stop) =
      headerLayout .gapRequest seq tsNs ++ bigEndian 8 start.toNat ++ bigEndian 8 stop.toNat := by
  unfold WireGapRequest.image encodeGapRequest
  simp [storeBe64_put, writeHeader_put]

theorem encodeGapResponse_put (out : WireGapResponse) (seq tsNs start stop : UInt64)
    (payloadBytes : UInt32) :
    WireGapResponse.image.put (encodeGapResponse out seq tsNs start stop payloadBytes) =
      headerLayout .gapResponse seq tsNs ++ bigEndian 8 start.toNat ++ bigEndian 8 stop.toNat ++
        bigEndian 4 payloadBytes.toNat ++ [0, 0, 0, 0] := by
  unfold WireGapResponse.image encodeGapResponse
  simp [storeBe32_put, storeBe64_put, writeHeader_put]
  rfl

end MarketDataPipeline.Wire
