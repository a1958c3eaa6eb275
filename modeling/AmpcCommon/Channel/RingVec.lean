import AmpcCommon.Wire.NetworkValue

/-!
# Vectors of ring elements

The model of `send_ring_vec` and `receive_ring_vec` of `execution/session.rs`, and of the conversions of `NetworkInt`:
a vector of one element is sent as that element, and any other vector is serialized straight into the format of the
vector variant.
-/

namespace AmpcCommon.Channel

open Wire

/-- The rings whose vectors are sent, the implementations of `NetworkInt`. -/
inductive NetworkInt where
  | u16 | u32 | u64 | ring48
  deriving Repr, DecidableEq

namespace NetworkInt

/-- The elements of the ring. -/
abbrev Elem : NetworkInt → Type
  | u16 => BitVec 16
  | u32 => BitVec 32
  | u64 => BitVec 64
  | ring48 => Ring48

instance (T : NetworkInt) : RingLayout T.Elem :=
  match T with
  | u16 => inferInstanceAs (RingLayout (BitVec 16))
  | u32 => inferInstanceAs (RingLayout (BitVec 32))
  | u64 => inferInstanceAs (RingLayout (BitVec 64))
  | ring48 => inferInstanceAs (RingLayout Ring48)

/-- `stringify!($t)` -/
def typeName : NetworkInt → String
  | u16 => "u16"
  | u32 => "u32"
  | u64 => "u64"
  | ring48 => "Ring48"

/-- `new_network_element` -/
def newNetworkElement : (T : NetworkInt) → T.Elem → NetworkValue
  | u16, e => .ringElement16 e
  | u32, e => .ringElement32 e
  | u64, e => .ringElement64 e
  | ring48, e => .ringElement48 e

/-- `new_network_vec` -/
def newNetworkVec : (T : NetworkInt) → List T.Elem → NetworkValue
  | u16, v => .vecRing16 v
  | u32, v => .vecRing32 v
  | u64, v => .vecRing64 v
  | ring48, v => .vecRing48 v

/-- `vec_descriptor_byte` -/
def vecDescriptorByte : NetworkInt → DescriptorByte
  | u16 => .vecRing16
  | u32 => .vecRing32
  | u64 => .vecRing64
  | ring48 => .vecRing48

/-- The elements of a value of one of the two variants of the ring. -/
def elems? : (T : NetworkInt) → NetworkValue → Option (List T.Elem)
  | u16, .ringElement16 e => some [e]
  | u16, .vecRing16 v => some v
  | u32, .ringElement32 e => some [e]
  | u32, .vecRing32 v => some v
  | u64, .ringElement64 e => some [e]
  | u64, .vecRing64 v => some v
  | ring48, .ringElement48 e => some [e]
  | ring48, .vecRing48 v => some v
  | _, _ => none

/-- `into_vec` of a value that is not pre-framed. -/
def intoVecOwned (T : NetworkInt) (value : NetworkValue) : Outcome (List T.Elem) :=
  match T.elems? value with
  | some v => .ok v
  | none => .bail s!"Invalid conversion to Vec<RingElement<{T.typeName}>>"

/-- `into_vec`. A pre-framed value is parsed first; what the parser returns is never pre-framed. -/
def intoVec (T : NetworkInt) : NetworkValue → Outcome (List T.Elem)
  | .preFramed frame => NetworkValue.deserialize frame >>= T.intoVecOwned
  | value => T.intoVecOwned value

/-- The message `send_ring_vec` sends for a vector. -/
def sendRingVec (T : NetworkInt) : List T.Elem → NetworkValue
  | [e] => T.newNetworkElement e
  | data => .preFramed (serializeVecRing data [T.vecDescriptorByte.toByte])

/-- The message in the owned variants: the element, or the vector. -/
def ownedMessage (T : NetworkInt) : List T.Elem → NetworkValue
  | [e] => T.newNetworkElement e
  | data => T.newNetworkVec data

/-- `receive_ring_vec`, of what `receive` has returned. -/
def receiveRingVec (T : NetworkInt) (received : Outcome NetworkValue) : Outcome (List T.Elem) :=
  received >>= T.intoVec

end NetworkInt

end AmpcCommon.Channel
