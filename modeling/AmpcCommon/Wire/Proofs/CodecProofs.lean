import AmpcCommon.Wire.NetworkValue
import Mathlib.Data.BitVec

/-!
# Values that are sent are read back

`frame v` is the byte string of a flat value, written down once: the serializer appends it to its
buffer, its length is `byteLen`, and the parser of flat values maps it back to `v`. A `NetworkVec` is
the concatenation of the frames of its elements behind a length field.
-/

namespace AmpcCommon.Wire

namespace DescriptorByte

@[simp] theorem tryFrom_toByte (d : DescriptorByte) : tryFrom d.toByte = .ok d := by
  cases d <;> rfl

theorem toByte_injective {d d' : DescriptorByte} (h : d.toByte = d'.toByte) : d = d' := by
  have h1 := tryFrom_toByte d
  rw [h, tryFrom_toByte] at h1
  exact (Except.ok.inj h1).symm

end DescriptorByte

/-- A word in the middle of a buffer is read back. -/
theorem readLe_append {k n : Nat} (hn : n < 256 ^ k) (before after : Bytes) :
    readLe k (before ++ (LittleEndian.encode k n ++ after)) before.length = .ok n := by
  have hslice : Bytes.slice (before ++ (LittleEndian.encode k n ++ after)) before.length
      (before.length + k) = .ok (LittleEndian.encode k n) := by
    rw [Bytes.slice_eq_ok (by omega) (by simp), List.drop_left]
    simp
  rw [readLe, hslice, Outcome.ok_bind, Bytes.fromLeBytes, if_pos (LittleEndian.length_encode k n),
    LittleEndian.decode_encode_of_lt hn]

theorem readLe_cons {b : UInt8} {k n : Nat} (hn : n < 256 ^ k) (after : Bytes) :
    readLe k (b :: (LittleEndian.encode k n ++ after)) 1 = .ok n :=
  readLe_append hn [b] after

theorem readU32_cons {b : UInt8} {n : Nat} (hn : n < 2 ^ 32) (after : Bytes) :
    readU32 (b :: (LittleEndian.encode 4 n ++ after)) 1 = .ok n :=
  readLe_cons hn after

/-- A ring layout whose vectors survive the wire: the memory of a value is `size` bytes, and its low
`wireBytes` bytes determine a canonical value. -/
structure RoundTrips (T : Type) [RingLayout T] (Canonical : T → Prop) : Prop where
  wireBytes_pos : 0 < RingLayout.wireBytes T
  wireBytes_le : RingLayout.wireBytes T ≤ RingLayout.size T
  length_toMem : ∀ x : T, (RingLayout.toMem x).length = RingLayout.size T
  ofMem_toMem : ∀ x : T, Canonical x →
    RingLayout.ofMem ((RingLayout.toMem x).take (RingLayout.wireBytes T) ++
      List.replicate (RingLayout.size T - RingLayout.wireBytes T) 0) = x

theorem roundTrips_wordLayout {w n : Nat} (hw : 2 ^ w = 256 ^ n) (hn : 0 < n) :
    @RoundTrips (BitVec w) (wordLayout w n) fun _ => True := by
  refine @RoundTrips.mk _ (wordLayout w n) _ hn (le_refl n) (fun x => ?_) fun x _ => ?_
  · exact LittleEndian.length_encode n _
  · show BitVec.ofNat w (LittleEndian.decode
      ((LittleEndian.encode n x.toNat).take n ++ List.replicate (n - n) 0)) = x
    rw [LittleEndian.decode_append_zeros, LittleEndian.take_encode (le_refl n),
      LittleEndian.decode_encode_of_lt (hw ▸ x.isLt), BitVec.ofNat_toNat, BitVec.setWidth_eq]

/-- The six bytes of a `Ring48` determine it, provided that it is below `2^48`. -/
theorem roundTrips_ring48 : RoundTrips Ring48 fun x => x.val.toNat < 2 ^ 48 where
  wireBytes_pos := by decide
  wireBytes_le := by decide
  length_toMem x := LittleEndian.length_encode 8 _
  ofMem_toMem x hx := by
    show (⟨BitVec.ofNat 64 (LittleEndian.decode
      ((LittleEndian.encode 8 x.val.toNat).take 6 ++ List.replicate 2 0))⟩ : Ring48) = x
    rw [LittleEndian.decode_append_zeros, LittleEndian.take_encode (by decide),
      LittleEndian.decode_encode_of_lt hx, BitVec.ofNat_toNat, BitVec.setWidth_eq]

@[simp] theorem wireBytes_u16 : RingLayout.wireBytes (BitVec 16) = 2 := rfl

@[simp] theorem wireBytes_u32 : RingLayout.wireBytes (BitVec 32) = 4 := rfl

@[simp] theorem wireBytes_u64 : RingLayout.wireBytes (BitVec 64) = 8 := rfl

@[simp] theorem wireBytes_ring48 : RingLayout.wireBytes Ring48 = 6 := rfl

section VecRing

variable {T : Type} [RingLayout T] {Canonical : T → Prop}

/-- The bytes of the elements of a vector on the wire. -/
def ringBytes (v : List T) : Bytes :=
  (v.map fun x => (RingLayout.toMem x).take (RingLayout.wireBytes T)).flatten

theorem length_ringBytes (h : RoundTrips T Canonical) (v : List T) :
    (ringBytes v).length = v.length * RingLayout.wireBytes T := by
  rw [ringBytes, LittleEndian.length_flatten, List.length_map]
  intro bs hbs
  obtain ⟨x, -, rfl⟩ := List.mem_map.mp hbs
  rw [List.length_take, h.length_toMem, min_eq_left h.wireBytes_le]

/-- Both paths of the serializer write the same bytes. -/
theorem serializeVecRing_eq (h : RoundTrips T Canonical) (v : List T) (res : Bytes) :
    serializeVecRing v res =
      res ++ LittleEndian.encode 4 (v.length * RingLayout.wireBytes T) ++ ringBytes v := by
  simp only [serializeVecRing, ringBytes]
  split_ifs with hw
  · rw [← List.flatMap_def]
    congr 2
    funext x
    rw [hw, ← h.length_toMem x, List.take_length]
  · rw [← List.flatMap_def]

/-- What both paths of the parser make of a body of whole elements. -/
theorem deserializeVecRing_eq {serialized : Bytes} {len : Nat}
    (hread : readU32 serialized 1 = .ok len) (hlen : serialized.length = 5 + len)
    (hdiv : len % RingLayout.wireBytes T = 0) :
    deserializeVecRing T serialized = .ok
      ((LittleEndian.chunks (RingLayout.wireBytes T) (len / RingLayout.wireBytes T)
        (serialized.drop 5)).map fun c =>
          RingLayout.ofMem (c ++ List.replicate (RingLayout.size T - RingLayout.wireBytes T) 0)) := by
  have hnum : len / RingLayout.wireBytes T * RingLayout.wireBytes T = len :=
    Nat.div_mul_cancel (Nat.dvd_of_mod_eq_zero hdiv)
  have hshort : ¬ serialized.length < 5 := by omega
  simp only [deserializeVecRing, if_neg hshort]
  rw [hread]
  simp only [bind, Except.bind, hlen, hdiv, ne_eq, not_true_eq_false, if_false]
  split_ifs with hw
  · rw [Bytes.slice_eq_ok (by omega) (by omega), hw, Nat.sub_self]
    simp only [List.replicate_zero, List.append_nil]
    rw [List.take_of_length_le (by simp [hlen])]
    rfl
  · rw [LittleEndian.chunks_eq_map_range, List.map_map]
    refine Outcome.mapM_eq_ok fun i hi => ?_
    have hi : i + 1 ≤ len / RingLayout.wireBytes T := List.mem_range.mp hi
    have hend : (i + 1) * RingLayout.wireBytes T ≤ len := hnum ▸ Nat.mul_le_mul_right _ hi
    have hstep : (i + 1) * RingLayout.wireBytes T =
        i * RingLayout.wireBytes T + RingLayout.wireBytes T := Nat.succ_mul _ _
    rw [Bytes.slice_eq_ok (by omega) (by omega)]
    have hwidth : 5 + (i + 1) * RingLayout.wireBytes T - (5 + i * RingLayout.wireBytes T) =
        RingLayout.wireBytes T := by omega
    simp [hwidth, List.drop_drop]
    rfl

/-- The parser reads back the bytes of a vector. -/
theorem deserializeVecRing_ringBytes (h : RoundTrips T Canonical) {v : List T}
    (hcan : ∀ x ∈ v, Canonical x) (hlen : v.length * RingLayout.wireBytes T < 2 ^ 32) (b : UInt8) :
    deserializeVecRing T
      (b :: (LittleEndian.encode 4 (v.length * RingLayout.wireBytes T) ++ ringBytes v)) = .ok v := by
  rw [deserializeVecRing_eq (readU32_cons hlen _)]
  · have hdrop : (b :: (LittleEndian.encode 4 (v.length * RingLayout.wireBytes T) ++
        ringBytes v)).drop 5 = ringBytes v := by
      simp
    rw [hdrop, Nat.mul_div_cancel _ h.wireBytes_pos, ringBytes]
    have hchunks := LittleEndian.chunks_flatten (w := RingLayout.wireBytes T)
      (v.map fun x => (RingLayout.toMem x).take (RingLayout.wireBytes T)) fun bs hbs => by
        obtain ⟨x, -, rfl⟩ := List.mem_map.mp hbs
        rw [List.length_take, h.length_toMem, min_eq_left h.wireBytes_le]
    rw [List.length_map] at hchunks
    rw [hchunks, List.map_map]
    refine congrArg Except.ok ?_
    calc v.map _ = v.map id := List.map_congr_left fun x hx => h.ofMem_toMem x (hcan x hx)
      _ = v := List.map_id v
  · simp [length_ringBytes h]
    omega
  · exact Nat.mul_mod_left _ _

end VecRing

namespace NetworkValue

/-- What follows the descriptor byte of a flat value. -/
def payload : NetworkValue → Bytes
  | .prfKey key => key.bytes
  | .prfCheck x => LittleEndian.encode 16 x.toNat
  | .ringElementBit _ => []
  | .ringElement16 x => LittleEndian.encode 2 x.toNat
  | .ringElement32 x => LittleEndian.encode 4 x.toNat
  | .ringElement64 x => LittleEndian.encode 8 x.toNat
  | .ringElement48 x => LittleEndian.encode 6 x.val.toNat
  | .vecRing16 v => LittleEndian.encode 4 (v.length * 2) ++ ringBytes v
  | .vecRing32 v => LittleEndian.encode 4 (v.length * 4) ++ ringBytes v
  | .vecRing64 v => LittleEndian.encode 4 (v.length * 8) ++ ringBytes v
  | .vecRing48 v => LittleEndian.encode 4 (v.length * 6) ++ ringBytes v
  | .stateChecksum c => LittleEndian.encode 8 c.irises.toNat ++ LittleEndian.encode 8 c.graph.toNat
  | .bytes v => LittleEndian.encode 4 v.length ++ v
  | .vecRingBit packed bitCount => LittleEndian.encode 4 bitCount ++ packed
  | .networkVec _ => []
  | .preFramed _ => []

/-- A value that is sent by itself or as an element: no `NetworkVec`, no pre-framed message. -/
def Flat : NetworkValue → Prop
  | .networkVec _ => False
  | .preFramed _ => False
  | _ => True

/-- The whole byte string of a flat value. -/
def frame (v : NetworkValue) : Bytes := v.descriptor?.toList.map DescriptorByte.toByte ++ v.payload

theorem roundTrips16 : RoundTrips (BitVec 16) fun _ => True :=
  roundTrips_wordLayout (by decide) (by decide)

theorem roundTrips32 : RoundTrips (BitVec 32) fun _ => True :=
  roundTrips_wordLayout (by decide) (by decide)

theorem roundTrips64 : RoundTrips (BitVec 64) fun _ => True :=
  roundTrips_wordLayout (by decide) (by decide)

theorem serializeInternal_eq {v : NetworkValue} (hv : v.Flat) (res : Bytes) :
    v.serializeInternal res = .ok (res ++ v.frame) := by
  have hring : ∀ {T : Type} [RingLayout T] {C : T → Prop}, RoundTrips T C → ∀ (v : List T) (b : UInt8),
      serializeVecRing v (res ++ [b]) = res ++ (b ::
        (LittleEndian.encode 4 (v.length * RingLayout.wireBytes T) ++ ringBytes v)) := by
    intro T _ C h v b
    rw [serializeVecRing_eq h]
    simp
  cases v with
  | networkVec v => exact hv.elim
  | preFramed f => exact hv.elim
  | vecRing16 v => exact congrArg Except.ok (hring roundTrips16 v _)
  | vecRing32 v => exact congrArg Except.ok (hring roundTrips32 v _)
  | vecRing64 v => exact congrArg Except.ok (hring roundTrips64 v _)
  | vecRing48 v => exact congrArg Except.ok (hring roundTrips_ring48 v _)
  | ringElement48 x =>
    simp [serializeInternal, frame, payload, descriptor?, getDescriptorByte, bind, Except.bind,
      LittleEndian.take_encode]
  | _ =>
    simp [serializeInternal, frame, payload, descriptor?, getDescriptorByte, bind, Except.bind]

theorem length_frame {v : NetworkValue} (hv : v.Flat) : v.frame.length = v.byteLen := by
  cases v with
  | networkVec v => exact hv.elim
  | preFramed f => exact hv.elim
  | prfKey key =>
    simp [frame, payload, descriptor?, byteLen, DescriptorByte.baseLen, key.size_eq]
    omega
  | vecRing16 v =>
    simp [frame, payload, descriptor?, byteLen, DescriptorByte.baseLen, length_ringBytes roundTrips16]
    omega
  | vecRing32 v =>
    simp [frame, payload, descriptor?, byteLen, DescriptorByte.baseLen, length_ringBytes roundTrips32]
    omega
  | vecRing64 v =>
    simp [frame, payload, descriptor?, byteLen, DescriptorByte.baseLen, length_ringBytes roundTrips64]
    omega
  | vecRing48 v =>
    simp [frame, payload, descriptor?, byteLen, DescriptorByte.baseLen,
      length_ringBytes roundTrips_ring48]
    omega
  | ringElementBit b => cases b <;> simp [frame, payload, descriptor?, byteLen, DescriptorByte.baseLen]
  | _ =>
    simp [frame, payload, descriptor?, byteLen, DescriptorByte.baseLen]
    try omega

/-- A flat value whose length fields fit in 32 bits, with canonical `Ring48` elements and as many
packed bytes as its bit count asks for. -/
def FlatSendable : NetworkValue → Prop
  | .vecRing16 v => v.length * 2 < 2 ^ 32
  | .vecRing32 v => v.length * 4 < 2 ^ 32
  | .vecRing64 v => v.length * 8 < 2 ^ 32
  | .ringElement48 x => x.val.toNat < 2 ^ 48
  | .vecRing48 v => v.length * 6 < 2 ^ 32 ∧ ∀ x ∈ v, x.val.toNat < 2 ^ 48
  | .bytes v => v.length < 2 ^ 32
  | .vecRingBit packed bitCount => packed.length = (bitCount + 7) / 8 ∧ bitCount < 2 ^ 32
  | .networkVec _ => False
  | .preFramed _ => False
  | _ => True

/-- A value the parties can send: a flat one, or a `NetworkVec` of flat ones whose length field fits
in 32 bits. -/
def Sendable : NetworkValue → Prop
  | .networkVec vs => (∀ v ∈ vs, v.FlatSendable) ∧ byteLenSum vs < 2 ^ 32
  | v => v.FlatSendable

theorem FlatSendable.flat {v : NetworkValue} (h : v.FlatSendable) : v.Flat := by
  cases v with
  | networkVec v => exact h
  | preFramed f => exact h
  | _ => trivial

theorem deserializeInternal_cons (d : DescriptorByte) (tail : Bytes) :
    deserializeInternal (d.toByte :: tail) = deserializeBody (d.toByte :: tail) d := by
  rw [deserializeInternal]
  simp only [List.isEmpty_cons, Bool.false_eq_true, if_false, Bytes.index, List.getElem?_cons_zero]
  show (DescriptorByte.tryFrom d.toByte >>= deserializeBody (d.toByte :: tail)) = _
  rw [DescriptorByte.tryFrom_toByte]
  rfl

theorem frame_eq {v : NetworkValue} {d : DescriptorByte} (h : v.descriptor? = some d) :
    v.frame = d.toByte :: v.payload := by
  rw [frame, h]
  rfl

/-- The parser of flat values maps the frame of a value back to it. -/
theorem deserializeInternal_frame {v : NetworkValue} (hv : v.FlatSendable) :
    deserializeInternal v.frame = .ok v := by
  obtain ⟨d, hd⟩ : ∃ d, v.descriptor? = some d := by
    cases v with
    | preFramed f => exact hv.elim
    | _ => exact ⟨_, rfl⟩
  rw [frame_eq hd, deserializeInternal_cons]
  -- a word that fills the frame
  have hword : ∀ {k n : Nat}, n < 256 ^ k →
      readLe k (d.toByte :: LittleEndian.encode k n) 1 = .ok n := by
    intro k n hn
    have := readLe_cons (b := d.toByte) hn []
    rwa [List.append_nil] at this
  -- a vector of ring elements, of any of the rings
  have hvec : ∀ {T : Type} [RingLayout T] {Canonical : T → Prop} (_ : RoundTrips T Canonical)
      (mk : List T → NetworkValue) {v : List T}, (∀ x ∈ v, Canonical x) →
      v.length * RingLayout.wireBytes T < 2 ^ 32 →
      (deserializeVecRing T (d.toByte :: (LittleEndian.encode 4 (v.length * RingLayout.wireBytes T) ++
        ringBytes v)) >>= fun v => pure (mk v)) = .ok (mk v) := by
    intro T _ Canonical hT mk v hcan hlen
    rw [deserializeVecRing_ringBytes hT hcan hlen d.toByte]
    rfl
  cases v with
  | networkVec v => exact hv.elim
  | preFramed f => exact hv.elim
  | prfKey key =>
    cases hd
    have hslice : Bytes.slice (DescriptorByte.prfKey.toByte :: key.bytes) 1 (1 + prfKeySize) =
        .ok key.bytes := by
      rw [Bytes.slice_eq_ok (by omega) (by simp [key.size_eq]; omega)]
      simp [← key.size_eq]
    have hlen : (DescriptorByte.prfKey.toByte :: key.bytes).length = 1 + prfKeySize := by
      simp [key.size_eq]
      omega
    simp only [deserializeBody, payload, hlen, hslice]
    simp [key.size_eq]
    rfl
  | ringElementBit b =>
    cases b
    · cases hd
      rfl
    · cases hd
      rfl
  | ringElement16 x =>
    cases hd
    simp [deserializeBody, payload, hword (k := 2) x.isLt]
  | ringElement32 x =>
    cases hd
    simp [deserializeBody, payload, hword (k := 4) x.isLt]
  | ringElement64 x =>
    cases hd
    simp [deserializeBody, payload, hword (k := 8) x.isLt]
  | prfCheck x =>
    cases hd
    simp [deserializeBody, payload, hword (k := 16) x.isLt]
  | vecRing16 v =>
    cases hd
    exact hvec roundTrips16 .vecRing16 (fun _ _ => trivial) hv
  | vecRing32 v =>
    cases hd
    exact hvec roundTrips32 .vecRing32 (fun _ _ => trivial) hv
  | vecRing64 v =>
    cases hd
    exact hvec roundTrips64 .vecRing64 (fun _ _ => trivial) hv
  | vecRing48 v =>
    cases hd
    exact hvec roundTrips_ring48 .vecRing48 hv.2 hv.1
  | ringElement48 x =>
    cases hd
    have hslice : Bytes.slice (DescriptorByte.ringElement48.toByte ::
        LittleEndian.encode 6 x.val.toNat) 1 (1 + 6) = .ok (LittleEndian.encode 6 x.val.toNat) := by
      rw [Bytes.slice_eq_ok (by omega) (by simp)]
      simp [LittleEndian.take_encode]
    have hdec : Bytes.fromLeBytes 8 (LittleEndian.encode 6 x.val.toNat ++ [0, 0]) =
        .ok x.val.toNat := by
      rw [Bytes.fromLeBytes, if_pos (by simp)]
      exact congrArg Except.ok ((LittleEndian.decode_append_zeros _ 2).trans
        (LittleEndian.decode_encode_of_lt hv))
    simp [deserializeBody, payload, hslice, hdec]
  | stateChecksum c =>
    cases hd
    have hgraph : readLe 8 (DescriptorByte.stateChecksum.toByte :: (LittleEndian.encode 8
        c.irises.toNat ++ LittleEndian.encode 8 c.graph.toNat)) 9 = .ok c.graph.toNat := by
      rw [readLe, Bytes.slice_eq_ok (by omega) (by simp)]
      have hdrop : ((DescriptorByte.stateChecksum.toByte :: (LittleEndian.encode 8
          c.irises.toNat ++ LittleEndian.encode 8 c.graph.toNat)).drop 9).take (9 + 8 - 9) =
          LittleEndian.encode 8 c.graph.toNat := by
        rw [List.drop_succ_cons, List.drop_left' (LittleEndian.length_encode 8 _),
          List.take_of_length_le (by simp)]
      rw [hdrop]
      show Bytes.fromLeBytes 8 (LittleEndian.encode 8 c.graph.toNat) = _
      rw [Bytes.fromLeBytes, if_pos (LittleEndian.length_encode 8 _),
        LittleEndian.decode_encode_of_lt c.graph.isLt]
    simp [deserializeBody, payload, readLe_cons (k := 8) c.irises.isLt, hgraph]
  | bytes v =>
    cases hd
    have hslice : Bytes.slice (DescriptorByte.bytes.toByte ::
        (LittleEndian.encode 4 v.length ++ v)) 5 (5 + v.length) = .ok v := by
      rw [Bytes.slice_eq_ok (by omega) (by simp; omega)]
      simp
    have hlen : (DescriptorByte.bytes.toByte :: (LittleEndian.encode 4 v.length ++ v)).length =
        5 + v.length := by
      simp
      omega
    have hlong : ¬ 5 + v.length < 5 := by omega
    simp only [deserializeBody, payload, hlen, hlong, if_false, readU32_cons hv]
    simp [hslice]
  | vecRingBit packed bitCount =>
    cases hd
    obtain ⟨hpacked, hcount⟩ := hv
    have hslice : Bytes.slice (DescriptorByte.vecRingBit.toByte ::
        (LittleEndian.encode 4 bitCount ++ packed)) 5 (5 + (bitCount + 7) / 8) = .ok packed := by
      rw [← hpacked, Bytes.slice_eq_ok (by omega) (by simp; omega)]
      simp
    have hlen : (DescriptorByte.vecRingBit.toByte ::
        (LittleEndian.encode 4 bitCount ++ packed)).length = 5 + (bitCount + 7) / 8 := by
      simp [hpacked]
      omega
    have hlong : ¬ 5 + (bitCount + 7) / 8 < 5 := by omega
    simp only [deserializeBody, payload, hlen, hlong, if_false, readU32_cons hcount]
    simp [hslice]

/-- The frames of the elements of a `NetworkVec`. -/
def frames (vs : List NetworkValue) : Bytes := (vs.map frame).flatten

theorem length_frames {vs : List NetworkValue} (h : ∀ v ∈ vs, v.Flat) :
    (frames vs).length = byteLenSum vs := by
  induction vs with
  | nil => rfl
  | cons v vs ih =>
    have ih := ih fun x hx => h x (List.mem_cons_of_mem _ hx)
    rw [frames] at ih
    rw [frames, List.map_cons, List.flatten_cons, List.length_append, ih,
      length_frame (h v List.mem_cons_self), byteLenSum]

theorem serializeAll_eq {vs : List NetworkValue} (h : ∀ v ∈ vs, v.Flat) (res : Bytes) :
    serializeAll vs res = .ok (res ++ frames vs) := by
  induction vs generalizing res with
  | nil => simp [serializeAll, frames]
  | cons v vs ih =>
    rw [serializeAll, serializeInternal_eq (h v List.mem_cons_self), Outcome.ok_bind,
      ih fun x hx => h x (List.mem_cons_of_mem _ hx)]
    simp [frames]

/-- The bytes of a `NetworkVec` of flat values. -/
theorem serializeVec_eq {vs : List NetworkValue} (h : ∀ v ∈ vs, v.Flat) (res : Bytes) :
    serializeVec vs res = .ok (res ++ (DescriptorByte.networkVec.toByte ::
      (LittleEndian.encode 4 (byteLenSum vs) ++ frames vs))) := by
  simp only [serializeVec]
  rw [serializeAll_eq h, Outcome.ok_bind]
  have hlen : (res ++ [DescriptorByte.networkVec.toByte] ++ [0, 0, 0, 0] ++ frames vs).length -
      res.length - 5 = byteLenSum vs := by
    simp [length_frames h]
  rw [hlen, Bytes.copyFromSlice, if_pos (by simp; omega)]
  have htake : (res ++ [DescriptorByte.networkVec.toByte] ++ [0, 0, 0, 0] ++ frames vs).take
      (res ++ [DescriptorByte.networkVec.toByte]).length =
      res ++ [DescriptorByte.networkVec.toByte] := by
    rw [List.append_assoc (res ++ _), List.take_left]
  have hdrop : (res ++ [DescriptorByte.networkVec.toByte] ++ [0, 0, 0, 0] ++ frames vs).drop
      ((res ++ [DescriptorByte.networkVec.toByte]).length +
        (LittleEndian.encode 4 (byteLenSum vs)).length) = frames vs := by
    refine List.drop_left' ?_
    simp
  rw [htake, hdrop]
  simp

/-- The kinds of values `deserialize_vec` accepts as elements. -/
def VecElement : NetworkValue → Prop
  | .prfKey _ => False
  | .prfCheck _ => False
  | .stateChecksum _ => False
  | _ => True

theorem elementLen_cons (before : Bytes) (d : DescriptorByte) (after : Bytes) (endIdx : Nat) :
    elementLen (before ++ d.toByte :: after) endIdx before.length =
      elementLenBody (before ++ d.toByte :: after) endIdx before.length d := by
  have hindex : Bytes.index (before ++ d.toByte :: after) before.length = .ok d.toByte := by
    simp [Bytes.index]
  rw [elementLen, hindex, Outcome.ok_bind, DescriptorByte.tryFrom_toByte, Outcome.ok_bind]

/-- The length field behind a descriptor is there, and is read back. -/
theorem readU32_field {n : Nat} (hn : n < 2 ^ 32) (before : Bytes) (b : UInt8) (body : Bytes) :
    ¬ (before ++ b :: (LittleEndian.encode 4 n ++ body)).length < before.length + 5 ∧
    readU32 (before ++ b :: (LittleEndian.encode 4 n ++ body)) (before.length + 1) = .ok n := by
  refine ⟨by simp, ?_⟩
  have := readLe_append (k := 4) hn (before ++ [b]) body
  simpa [readU32] using this

/-- The vector parser finds the length of an element of a kind it accepts. -/
theorem elementLen_frame {v : NetworkValue} (hv : v.FlatSendable) (hk : v.VecElement)
    (before after : Bytes) :
    elementLen (before ++ (v.frame ++ after)) (before ++ (v.frame ++ after)).length before.length =
      .ok v.frame.length := by
  obtain ⟨d, hd⟩ : ∃ d, v.descriptor? = some d := by
    cases v with
    | preFramed f => exact hv.elim
    | _ => exact ⟨_, rfl⟩
  rw [length_frame hv.flat, frame_eq hd, List.cons_append, elementLen_cons]
  -- the kinds whose length field counts bytes
  have hvec : ∀ {n : Nat} (body : Bytes), n < 2 ^ 32 →
      (d = .vecRing16 ∨ d = .vecRing32 ∨ d = .vecRing64 ∨ d = .vecRing48 ∨ d = .bytes) →
      elementLenBody (before ++ d.toByte :: (LittleEndian.encode 4 n ++ body ++ after))
        (before ++ d.toByte :: (LittleEndian.encode 4 n ++ body ++ after)).length
        before.length d = .ok (5 + n) := by
    intro n body hn hd
    rw [List.append_assoc (LittleEndian.encode 4 n)]
    obtain ⟨hlong, hread⟩ := readU32_field hn before d.toByte (body ++ after)
    rcases hd with rfl | rfl | rfl | rfl | rfl <;>
      simp only [elementLenBody, if_neg hlong, hread, Outcome.ok_bind] <;> rfl
  cases v with
  | networkVec v => exact hv.elim
  | preFramed f => exact hv.elim
  | prfKey key => exact hk.elim
  | prfCheck x => exact hk.elim
  | stateChecksum c => exact hk.elim
  | ringElementBit b =>
    cases b
    · cases hd
      rfl
    · cases hd
      rfl
  | vecRing16 v =>
    cases hd
    rw [payload, hvec _ hv (by simp), byteLen, Nat.mul_comm]
    rfl
  | vecRing32 v =>
    cases hd
    rw [payload, hvec _ hv (by simp), byteLen, Nat.mul_comm]
    rfl
  | vecRing64 v =>
    cases hd
    rw [payload, hvec _ hv (by simp), byteLen, Nat.mul_comm]
    rfl
  | vecRing48 v =>
    cases hd
    rw [payload, hvec _ hv.1 (by simp), byteLen, Nat.mul_comm]
    rfl
  | bytes v =>
    cases hd
    rw [payload, hvec _ hv (by simp), byteLen]
    rfl
  | vecRingBit packed bitCount =>
    cases hd
    obtain ⟨hlong, hread⟩ := readU32_field hv.2 before DescriptorByte.vecRingBit.toByte
      (packed ++ after)
    simp only [payload, List.append_assoc, elementLenBody, if_neg hlong, hread, Outcome.ok_bind,
      byteLen, hv.1]
    rfl
  | _ =>
    cases hd
    rfl

section Loop

variable {serialized : Bytes} {endIdx idx : Nat}

theorem deserializeVecLoop_end (h : ¬ idx < endIdx) (res : List NetworkValue) :
    deserializeVecLoop serialized endIdx idx res = .ok res := by
  rw [deserializeVecLoop, if_neg h]

theorem deserializeVecLoop_error (h : idx < endIdx) {e : Failure}
    (hlen : elementLen serialized endIdx idx = .error e) (res : List NetworkValue) :
    deserializeVecLoop serialized endIdx idx res = .error e := by
  rw [deserializeVecLoop, if_pos h]
  split
  · rename_i e' he'
    rw [hlen] at he'
    cases he'
    rfl
  · rename_i n hn
    rw [hlen] at hn
    cases hn

/-- One iteration: cut out the element, parse it, go on behind it. -/
theorem deserializeVecLoop_step (h : idx < endIdx) {n : Nat}
    (hlen : elementLen serialized endIdx idx = .ok n) (res : List NetworkValue) :
    deserializeVecLoop serialized endIdx idx res =
      ((serialized.slice idx (idx + n) >>= deserializeInternal) >>= fun v =>
        deserializeVecLoop serialized endIdx (idx + n) (res ++ [v])) := by
  rw [deserializeVecLoop, if_pos h]
  split
  · rename_i e he
    rw [hlen] at he
    cases he
  · rename_i n' hn'
    rw [hlen] at hn'
    cases hn'
    cases serialized.slice idx (idx + n) >>= deserializeInternal with
    | error e => rfl
    | ok v => rfl

end Loop

theorem frame_length_pos {v : NetworkValue} (hv : v.FlatSendable) : 0 < v.frame.length := by
  rw [length_frame hv.flat]
  cases v with
  | networkVec v => exact hv.elim
  | preFramed f => exact hv.elim
  | ringElementBit b => cases b <;> decide
  | _ => simp [byteLen, descriptor?, DescriptorByte.baseLen]

/-- The vector parser rejects the other kinds. -/
theorem elementLen_not_vecElement {v : NetworkValue} (hk : ¬ v.VecElement) (before after : Bytes)
    (endIdx : Nat) :
    elementLen (before ++ (v.frame ++ after)) endIdx before.length =
      .bail "Invalid type for NetworkVec" := by
  cases v with
  | prfKey key => exact elementLen_cons before .prfKey _ endIdx
  | prfCheck x => exact elementLen_cons before .prfCheck _ endIdx
  | stateChecksum c => exact elementLen_cons before .stateChecksum _ endIdx
  | _ => exact absurd trivial hk

/-- The loop of the vector parser reads the frames of acceptable values back, and stops with an error
at the first other value. -/
theorem deserializeVecLoop_frames {vs : List NetworkValue} (h : ∀ v ∈ vs, v.FlatSendable)
    (before : Bytes) (res : List NetworkValue) :
    ((∀ v ∈ vs, v.VecElement) → deserializeVecLoop (before ++ frames vs)
      (before ++ frames vs).length before.length res = .ok (res ++ vs)) ∧
    ((∃ v ∈ vs, ¬ v.VecElement) → deserializeVecLoop (before ++ frames vs)
      (before ++ frames vs).length before.length res = .bail "Invalid type for NetworkVec") := by
  induction vs generalizing before res with
  | nil =>
    refine ⟨fun _ => ?_, fun ⟨v, hv, _⟩ => absurd hv List.not_mem_nil⟩
    rw [deserializeVecLoop_end (by simp [frames]), List.append_nil]
  | cons v vs ih =>
    have hv := h v List.mem_cons_self
    have hlt : before.length < (before ++ (v.frame ++ frames vs)).length := by
      have := frame_length_pos hv
      simp
      omega
    rw [show frames (v :: vs) = v.frame ++ frames vs by simp [frames]]
    by_cases hk : v.VecElement
    · have hslice : (Bytes.slice (before ++ (v.frame ++ frames vs)) before.length
          (before.length + v.frame.length) >>= deserializeInternal) = .ok v := by
        rw [Bytes.slice_eq_ok (by omega) (by simp), List.drop_left, Outcome.ok_bind]
        simp [deserializeInternal_frame hv]
      rw [deserializeVecLoop_step hlt (elementLen_frame hv hk before _), hslice, Outcome.ok_bind]
      obtain ⟨hall, hsome⟩ := ih (fun x hx => h x (List.mem_cons_of_mem _ hx)) (before ++ v.frame)
        (res ++ [v])
      rw [List.append_assoc] at hall hsome
      rw [← List.length_append]
      constructor
      · intro hks
        rw [hall fun x hx => hks x (List.mem_cons_of_mem _ hx), List.append_assoc]
        rfl
      · rintro ⟨x, hx, hxk⟩
        rcases List.mem_cons.mp hx with rfl | hx
        · exact absurd hk hxk
        · exact hsome ⟨x, hx, hxk⟩
    · have herr := elementLen_not_vecElement hk before (frames vs)
        (before ++ (v.frame ++ frames vs)).length
      exact ⟨fun hks => absurd (hks v List.mem_cons_self) hk,
        fun _ => deserializeVecLoop_error hlt herr res⟩

/-- The kinds a `NetworkVec` may hold so that its receiver accepts it; other values hold no
elements. -/
def Readable : NetworkValue → Prop
  | .networkVec vs => ∀ v ∈ vs, v.VecElement
  | _ => True

theorem deserializeVec_eq {vs : List NetworkValue} (hlen : byteLenSum vs < 2 ^ 32)
    (hflat : ∀ v ∈ vs, v.Flat) :
    deserialize (DescriptorByte.networkVec.toByte ::
      (LittleEndian.encode 4 (byteLenSum vs) ++ frames vs)) =
    (deserializeVecLoop (DescriptorByte.networkVec.toByte ::
        LittleEndian.encode 4 (byteLenSum vs) ++ frames vs)
      (DescriptorByte.networkVec.toByte ::
        LittleEndian.encode 4 (byteLenSum vs) ++ frames vs).length 5 []).map .networkVec := by
  have htotal : (DescriptorByte.networkVec.toByte ::
      (LittleEndian.encode 4 (byteLenSum vs) ++ frames vs)).length = 5 + byteLenSum vs := by
    simp [length_frames hflat]
    omega
  have hlong : ¬ 5 + byteLenSum vs < 5 := by omega
  rw [deserialize, if_pos List.head?_cons, List.cons_append, htotal]
  simp only [deserializeVec, htotal, if_neg hlong, readU32_cons hlen, Outcome.ok_bind,
    Bytes.index_cons_zero, ne_eq, not_true_eq_false, if_false]

end NetworkValue

open NetworkValue

/-- A flat value is sent as its frame and read back. -/
theorem deserialize_serialize_flat {v : NetworkValue} (hv : v.FlatSendable) :
    v.toNetwork = .ok v.frame ∧ deserialize v.frame = .ok v := by
  have hser : v.serialize [] = v.serializeInternal [] := by
    cases v with
    | networkVec vs => exact hv.elim
    | preFramed f => exact hv.elim
    | _ => rfl
  have hhead : v.frame.head? ≠ some DescriptorByte.networkVec.toByte := by
    cases v with
    | networkVec vs => exact hv.elim
    | preFramed f => exact hv.elim
    | ringElementBit b => cases b <;> decide
    | _ => simp [frame, descriptor?, DescriptorByte.toByte]
  constructor
  · rw [toNetwork, hser, serializeInternal_eq hv.flat, List.nil_append]
  · rw [deserialize, if_neg hhead, deserializeInternal_frame hv]

/-- A vector of flat values is sent, and is read back or rejected, depending on its elements. -/
theorem deserialize_serialize_vec {vs : List NetworkValue} (hvs : ∀ v ∈ vs, v.FlatSendable)
    (hlen : byteLenSum vs < 2 ^ 32) :
    ∃ bs, (networkVec vs).toNetwork = .ok bs ∧ bs.length = (networkVec vs).byteLen ∧
      ((∀ v ∈ vs, v.VecElement) → deserialize bs = .ok (.networkVec vs)) ∧
      ((∃ v ∈ vs, ¬ v.VecElement) → deserialize bs = .bail "Invalid type for NetworkVec") := by
  have hflat : ∀ x ∈ vs, x.Flat := fun x hx => (hvs x hx).flat
  obtain ⟨hall, hsome⟩ := deserializeVecLoop_frames hvs
    (DescriptorByte.networkVec.toByte :: LittleEndian.encode 4 (byteLenSum vs)) []
  have hfive : (DescriptorByte.networkVec.toByte ::
      LittleEndian.encode 4 (byteLenSum vs)).length = 5 := by simp
  rw [hfive] at hall hsome
  refine ⟨_, serializeVec_eq hflat [], ?_, ?_, ?_⟩
  · rw [List.nil_append, byteLen, ← length_frames hflat]
    simp [DescriptorByte.baseLen]
    omega
  · intro hks
    rw [List.nil_append, deserializeVec_eq hlen hflat, hall hks, List.nil_append]
    rfl
  · intro hbad
    rw [List.nil_append, deserializeVec_eq hlen hflat, hsome hbad]
    rfl

/-- **Sent values are read back.** Sending a value succeeds and writes `byteLen` bytes, and reading
these bytes returns the value exactly when no element of a `NetworkVec` is a PRF key, a PRF check or a
state checksum. -/
theorem deserialize_serialize (v : NetworkValue) (hv : v.Sendable) :
    ∃ bs, v.toNetwork = .ok bs ∧ bs.length = v.byteLen ∧
      (deserialize bs = .ok v ↔ v.Readable) := by
  by_cases hvec : ∃ vs, v = .networkVec vs
  · obtain ⟨vs, rfl⟩ := hvec
    obtain ⟨bs, hser, hlen, hall, hsome⟩ := deserialize_serialize_vec hv.1 hv.2
    refine ⟨bs, hser, hlen, fun hok => ?_, hall⟩
    by_contra hbad
    obtain ⟨x, hx⟩ := not_forall.mp hbad
    obtain ⟨hxvs, hxk⟩ := Classical.not_imp.mp hx
    rw [hsome ⟨x, hxvs, hxk⟩] at hok
    cases hok
  · have hflat : v.FlatSendable := by
      cases v with
      | networkVec vs => exact absurd ⟨vs, rfl⟩ hvec
      | _ => exact hv
    obtain ⟨hser, hdes⟩ := deserialize_serialize_flat hflat
    refine ⟨v.frame, hser, length_frame hflat.flat, fun _ => ?_, fun _ => hdes⟩
    cases v with
    | networkVec vs => exact absurd ⟨vs, rfl⟩ hvec
    | _ => trivial

/-- A vector of all kinds of elements its receiver accepts. -/
def mixedVec : NetworkValue :=
  .networkVec [.vecRing48 [⟨5⟩, ⟨2 ^ 47⟩], .vecRingBit [0xff, 0x03] 10, .bytes [1, 2, 3],
    .ringElementBit true, .ringElement16 7]

theorem deserialize_serialize_mixedVec :
    ∃ bs, mixedVec.toNetwork = .ok bs ∧ bs.length = mixedVec.byteLen ∧
      deserialize bs = .ok mixedVec := by
  have hv : mixedVec.Sendable := by
    refine ⟨?_, by decide⟩
    simp only [List.forall_mem_cons, List.not_mem_nil, false_imp_iff, implies_true, FlatSendable]
    decide
  obtain ⟨bs, hser, hlen, hdes⟩ := deserialize_serialize mixedVec hv
  exact ⟨bs, hser, hlen, hdes.mpr (by simp [mixedVec, Readable, VecElement])⟩

/-- A PRF key is sent as an element of a `NetworkVec`, but not read back. -/
theorem prfKey_element_not_readable :
    let v := NetworkValue.networkVec [.prfKey ⟨List.replicate 16 0, rfl⟩]
    v.Sendable ∧ ¬ ∃ bs, v.toNetwork = .ok bs ∧ deserialize bs = .ok v := by
  intro v
  have hv : v.Sendable := by
    simp [v, Sendable, FlatSendable, byteLenSum, byteLen, DescriptorByte.baseLen, descriptor?,
      prfKeySize]
  refine ⟨hv, ?_⟩
  rintro ⟨bs, hser, hdes⟩
  obtain ⟨bs', hser', -, -, hbad⟩ := deserialize_serialize_vec hv.1 hv.2
  rw [hser] at hser'
  cases hser'
  rw [hbad ⟨_, List.mem_cons_self, id⟩] at hdes
  cases hdes

end AmpcCommon.Wire
