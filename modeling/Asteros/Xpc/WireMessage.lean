import Asteros.Lib.ByteMemory
import Asteros.Xpc.RoundTrip
import Asteros.Xpc.Untrusted

set_option autoImplicit false

/-!
# Messages on a Mach port

One Mach message carries one XPC message: `send_wire` fills a `struct xpc_wire_msg`, the kernel
moves `msgh_size` bytes of it, and `recv_thread_main` receives into another such structure on its
stack, which it hands to `route_incoming`. The receive side takes the length of the payload from
the message itself. It does not compare it with the size of the message that arrived, nor with the
size of the array: a sender chooses how far the decoder reads.

The kernel replaces the header of a message it delivers and appends a trailer; everything behind
them in the receiver's structure is what the stack held before.

## Main definitions

* `Arrival`, `Arrival.frame` — a received message, and the memory it arrives in.
* `routeIncoming`, `recvThreadMain` — the receive side.
* `sendWire` — the send side.

## Main results

* `handedReceived_iff` — the receive loop hands only received bytes to the decoder exactly when
  every message states a payload length that its size covers.
-/

namespace Asteros.Xpc

open Asteros.Libc LittleEndian

/-! ## The layout of a message -/

/-- `sizeof(mach_msg_header_t)`. -/
def headerSize : ℕ := 24

/-- `offsetof(struct xpc_wire_msg, msg_id)`. -/
def msgIdOff : ℕ := 24

/-- `offsetof(struct xpc_wire_msg, is_reply)`. -/
def isReplyOff : ℕ := 32

/-- `offsetof(struct xpc_wire_msg, payload_len)`. -/
def payloadLenOff : ℕ := 36

/-- `offsetof(struct xpc_wire_msg, payload)`. -/
def payloadOff : ℕ := 40

/-- `XPC_WIRE_MAX_PAYLOAD`. -/
def xpcWireMaxPayload : ℕ := 8192

/-- The capacity of the payload array is a `size_t`. -/
lemma xpcWireMaxPayload_lt : xpcWireMaxPayload < 2 ^ 64 := by norm_num [xpcWireMaxPayload]

/-- `sizeof(struct xpc_wire_msg)`, with the 128 bytes of `trailer_pad`. -/
def sizeofWireMsg : ℕ := payloadOff + xpcWireMaxPayload + 128

/-- `XPC_WIRE_SEND_SIZE(len)`, rounded up to a multiple of four. -/
def xpcWireSendSize (len : ℕ) : ℕ := toUint32 ((payloadOff + len + 3) / 4 * 4)

/-! ## Receiving -/

/-- A message received by `mach_msg` with room for `sizeof(struct xpc_wire_msg)` bytes. -/
structure Arrival where
  /-- The memory from the receive buffer on, before the message arrives. -/
  stale : ℕ → UInt8
  /-- The message, header included; its length is `msgh_size`. -/
  bytes : List UInt8
  /-- The trailer the kernel appends. -/
  trailer : List UInt8
  /-- A Mach message has at least a header. -/
  header_le : headerSize ≤ bytes.length
  /-- What does not fit is not received. -/
  size_le : bytes.length + trailer.length ≤ sizeofWireMsg

namespace Arrival

variable (a : Arrival)

/-- `msgh_size` of the received message. -/
def msghSize : ℕ := a.bytes.length

/-- The memory from the receive buffer on, after the message has arrived. -/
def frame : ℕ → UInt8 :=
  ByteMemory.store (ByteMemory.store a.stale 0 a.bytes) a.msghSize a.trailer

/-- `msg->msg_id`. -/
def msgId : UInt64 := UInt64.ofNat (ByteMemory.loadNat a.frame msgIdOff 8)

/-- `msg->is_reply`, as the condition it is used as. -/
def isReply : Bool := a.frame isReplyOff != 0

/-- `msg->payload_len`. -/
def payloadLen : ℕ := ByteMemory.loadNat a.frame payloadLenOff 4

/-- The payload length is a `uint32_t`. -/
lemma payloadLen_lt : a.payloadLen < 2 ^ 32 :=
  (ByteMemory.loadNat_lt a.frame payloadLenOff 4).trans_eq (by norm_num)

/-- `payload_len` bytes from `msg->payload` on, wherever that leads. -/
def payload : Buffer where
  bytes := ByteMemory.load a.frame payloadOff a.payloadLen
  size_lt := by
    rw [ByteMemory.length_load]
    exact lt_size_of_lt_uint32 a.payloadLen_lt

/-- The size of the message covers the payload length that it states. -/
def LengthCovered : Prop :=
  a.payloadLen = 0 ∨
    payloadOff + a.payloadLen ≤ a.msghSize ∧ a.payloadLen ≤ xpcWireMaxPayload

/-- The message a range inside the message is read from. -/
lemma load_frame {off n : ℕ} (h : off + n ≤ a.msghSize) :
    ByteMemory.load a.frame off n = (a.bytes.drop off).take n := by
  rw [frame, ByteMemory.load_store_of_disjoint (Or.inl h)]
  simpa using ByteMemory.load_store_sub (m := a.stale) (a := 0) off h

end Arrival

/-- What becomes of a received message. -/
inductive Delivery where
  /-- `complete_pending` on a reply's id with its value. -/
  | completePending (msgid : UInt64) (result : XpcObject)
  /-- `deliver_event` of a value; a dictionary is stamped with the message id. -/
  | deliverEvent (event : XpcObject) (assocMsgid : Option UInt64)

/-- A dictionary can be stamped. -/
def XpcObject.isDictionary : XpcObject → Bool
  | .dictionary _ => true
  | _ => false

/-- What `route_incoming` did with a message. -/
structure Routing where
  /-- The range handed to `xpc_deserialize`, from the start of the receive buffer. -/
  off : ℕ
  /-- The length of the range. -/
  len : ℕ
  /-- The outcome of `xpc_deserialize`. -/
  decoded : Decoded XpcObject
  /-- What becomes of the message. -/
  delivery : Delivery

/-- The object of a decoding, or `xpc_null_create()` in place of `NULL`. -/
def orNull (decoded : Decoded XpcObject) : XpcObject :=
  (decoded.bind Prod.fst).getD .null

/-- `route_incoming`. Both branches decode the payload alike. -/
def routeIncoming (msg : Arrival) : Routing :=
  let decoded := xpcDeserialize msg.payload
  let obj := orNull decoded
  { off := payloadOff
    len := msg.payloadLen
    decoded
    delivery :=
      if msg.isReply then .completePending msg.msgId obj
      else .deliverEvent obj (if obj.isDictionary then some msg.msgId else none) }

/-- The loop of `recv_thread_main` over the outcomes of its calls of `mach_msg`: a message, or a
failure, which ends the loop. -/
def recvThreadMain : List (Option Arrival) → List (Arrival × Routing)
  | [] => []
  | none :: _ => []
  | some msg :: rest => (msg, routeIncoming msg) :: recvThreadMain rest

/-- The messages received before the first failure. -/
def receivedMessages : List (Option Arrival) → List Arrival
  | [] => []
  | none :: _ => []
  | some msg :: rest => msg :: receivedMessages rest

/-- The loop routes exactly the messages received before the first failure. -/
lemma recvThreadMain_eq_map (arrivals : List (Option Arrival)) :
    recvThreadMain arrivals =
      (receivedMessages arrivals).map fun msg => (msg, routeIncoming msg) := by
  induction arrivals with
  | nil => rfl
  | cons arrival arrivals ih =>
    cases arrival with
    | none => rfl
    | some msg => simp [recvThreadMain, receivedMessages, ih]

/-! ## Only what was received -/

/-- Every byte of the range handed to the decoder is a byte of the payload array that was
received. -/
def HandedReceived (msg : Arrival) (route : Routing) : Prop :=
  ∀ i, route.off ≤ i → i < route.off + route.len →
    i < msg.msghSize ∧ payloadOff ≤ i ∧ i < payloadOff + xpcWireMaxPayload

/-- One message: the range is inside what was received exactly when the size of the message
covers the length it states. -/
lemma handedReceived_routeIncoming (msg : Arrival) :
    HandedReceived msg (routeIncoming msg) ↔ msg.LengthCovered := by
  simp only [HandedReceived, routeIncoming, Arrival.LengthCovered]
  constructor
  · intro h
    by_cases hlen : msg.payloadLen = 0
    · exact Or.inl hlen
    · have hlast := h (payloadOff + msg.payloadLen - 1) (by omega) (by omega)
      exact Or.inr (by omega)
  · rintro (hlen | ⟨hsize, hmax⟩) i hi hi'
    · omega
    · omega

/-- **The receive loop hands only received bytes to the decoder exactly when every message is
honest about its length**, for every sequence of messages with any contents, in any memory. -/
theorem handedReceived_iff (arrivals : List (Option Arrival)) :
    (∀ p ∈ recvThreadMain arrivals, HandedReceived p.1 p.2) ↔
      ∀ msg ∈ receivedMessages arrivals, msg.LengthCovered := by
  rw [recvThreadMain_eq_map]
  simp only [List.mem_map, forall_exists_index, and_imp, forall_apply_eq_imp_iff₂,
    handedReceived_routeIncoming]

/-- A bare request of 40 bytes that states a payload of 8 KiB. -/
def overclaim : Arrival where
  stale _ := 0
  bytes := List.replicate 36 0 ++ leBytes 4 8192
  trailer := leBytes 8 (8 * 2 ^ 32)
  header_le := by simp [headerSize]
  size_le := by simp [sizeofWireMsg, payloadOff, xpcWireMaxPayload]

/-- **The receive loop trusts the length a message states**: of the 8192 bytes it hands to the
decoder for a message of 40 bytes none was received. -/
theorem not_handedReceived_overclaim :
    ¬∀ p ∈ recvThreadMain [some overclaim], HandedReceived p.1 p.2 := by
  have hsize : overclaim.msghSize = 40 := rfl
  have hlen : overclaim.payloadLen = 8192 := by
    rw [Arrival.payloadLen, ByteMemory.loadNat, Arrival.load_frame _ (by rw [hsize]; decide)]
    decide
  rw [handedReceived_iff]
  intro h
  have hcovered := h overclaim (by simp [receivedMessages])
  simp [Arrival.LengthCovered, hsize, hlen, payloadOff] at hcovered

/-! ## Sending -/

/-- The header `send_wire` fills in: `COPY_SEND` for both ports, the size of the message, the
ports, no voucher, and `XPC_WIRE_MSGH_ID`. -/
def wireHeader (remotePort localPort size : ℕ) : List UInt8 :=
  leBytes 4 (19 + 19 * 256) ++ leBytes 4 size ++ leBytes 4 remotePort ++ leBytes 4 localPort ++
    leBytes 4 0 ++ leBytes 4 0x58504331

/-- The fields between the header and the payload; `stale` is what the stack held before. -/
def wireFields (stale : ℕ → UInt8) (msgid : UInt64) (isReply : Bool) (len : ℕ) : List UInt8 :=
  leBytes 8 msgid.toNat ++ [if isReply then 1 else 0] ++
    ByteMemory.load stale (isReplyOff + 1) 3 ++ leBytes 4 (toUint32 len)

/-- `send_wire`: the message sent, or nothing if the graph is too large. Up to three bytes behind
the payload are sent along as they are. -/
def sendWire (stale : ℕ → UInt8) (remotePort localPort : ℕ) (msgid : UInt64) (isReply : Bool)
    (message : XpcObject) : Option (List UInt8) :=
  match xpcSerialize message xpcWireMaxPayload xpcWireMaxPayload_lt with
  | none => none
  | some payload =>
    let size := xpcWireSendSize payload.length
    some (wireHeader remotePort localPort size ++ wireFields stale msgid isReply payload.length ++
      payload ++ ByteMemory.load stale (payloadOff + payload.length)
        (size - (payloadOff + payload.length)))

end Asteros.Xpc
