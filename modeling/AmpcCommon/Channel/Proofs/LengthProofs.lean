import AmpcCommon.Channel.Multiplexer
import AmpcCommon.Wire.Proofs.DecoderProofs

/-!
# The frame of a message

The serializer appends the bytes of a message to its buffer, whatever is in it (`serialize_append`). A byte string
that the parser accepts has the length the multiplexer works out from its descriptor byte and its length field
(`deserialize_framed`).
-/

namespace AmpcCommon.Channel

open Wire NetworkValue

/-- The first byte of a message is a descriptor, a length field follows where there is one, and the two give the
length of the message. -/
def Framed (bs : Bytes) : Prop :=
  ∃ (d : DescriptorByte) (tail : Bytes), bs = d.toByte :: tail ∧
    if hasByteLen d ∨ d = .vecRingBit then
      4 ≤ tail.length ∧ bs.length = totalLen d (LittleEndian.decode (tail.take 4))
    else bs.length = totalLen d 0

theorem readU32_cons_eq {b : UInt8} {tail : Bytes} (h : 4 ≤ tail.length) :
    readU32 (b :: tail) 1 = .ok (LittleEndian.decode (tail.take 4)) :=
  readLe_eq_ok (by simpa [Nat.add_comm] using h)

theorem deserializeBody_length {d : DescriptorByte} {tail : Bytes} {v : NetworkValue}
    (h : deserializeBody (d.toByte :: tail) d = .ok v) : Framed (d.toByte :: tail) := by
  refine ⟨d, tail, rfl, ?_⟩
  have hfield : ∀ {f : Nat → Nat}, (ElementKind.field f).Sized (d.toByte :: tail) →
      4 ≤ tail.length ∧ (d.toByte :: tail).length = 5 + f (LittleEndian.decode (tail.take 4)) := by
    rintro f ⟨len, hread, hlen⟩
    have htail : 4 ≤ tail.length := by
      rw [List.length_cons] at hlen
      omega
    rw [readU32_cons_eq htail] at hread
    cases hread
    exact ⟨htail, hlen⟩
  obtain ⟨⟨hsized, -⟩, -⟩ := (deserializeBody_spec (List.cons_ne_nil _ tail) d).inv h
  cases d with
  | vecRing16 | vecRing32 | vecRing64 | vecRing48 | bytes | vecRingBit => exact hfield hsized
  | networkVec => exact hsized.elim
  | _ => exact hsized

/-- What the parser accepts is framed. -/
theorem deserialize_framed {bs : Bytes} {v : NetworkValue} (h : deserialize bs = .ok v) : Framed bs := by
  unfold deserialize at h
  cases bs with
  | nil => cases h
  | cons b tail =>
    split_ifs at h with hvec
    · -- a `NetworkVec`
      obtain rfl : b = DescriptorByte.networkVec.toByte := Option.some.inj hvec
      refine ⟨.networkVec, tail, rfl, ?_⟩
      cases hvs : deserializeVec (DescriptorByte.networkVec.toByte :: tail) with
      | error e =>
        rw [hvs] at h
        cases h
      | ok vs =>
        unfold deserializeVec at hvs
        split_ifs at hvs with hshort
        · cases hvs
        · have hlen : 4 ≤ tail.length := by
            rw [List.length_cons] at hshort
            omega
          rw [Bytes.index_cons_zero, Outcome.ok_bind, if_neg (not_not.mpr rfl), readU32_cons_eq hlen,
            Outcome.ok_bind] at hvs
          split_ifs at hvs with hmatch
          · cases hvs
          · exact ⟨hlen, not_not.mp hmatch⟩
    · unfold deserializeInternal at h
      rw [List.isEmpty_cons, if_neg Bool.false_ne_true, Bytes.index_cons_zero, Outcome.ok_bind] at h
      obtain ⟨d, hd, h⟩ := Outcome.bind_eq_ok.mp h
      obtain rfl := DescriptorByte.tryFrom_eq_ok hd
      exact deserializeBody_length h

theorem Framed.ne_nil {bs : Bytes} (h : Framed bs) : bs ≠ [] := by
  obtain ⟨d, tail, rfl, -⟩ := h
  exact List.cons_ne_nil _ _

/-- A length field of 32 bits bounds the length of a message. -/
theorem Framed.length_lt {bs : Bytes} (h : Framed bs) : bs.length < 2 ^ 32 + 5 := by
  obtain ⟨d, tail, rfl, h⟩ := h
  have hfield : LittleEndian.decode (tail.take 4) < 2 ^ 32 := by
    refine (LittleEndian.decode_lt _).trans_le ?_
    exact Nat.pow_le_pow_right (by omega) (List.length_take_le 4 tail)
  split_ifs at h with hd
  · obtain ⟨-, hlen⟩ := h
    rw [hlen]
    cases d <;> simp [totalLen, hasByteLen, DescriptorByte.baseLen] at * <;> omega
  · rw [h]
    cases d <;> simp [totalLen, hasByteLen, DescriptorByte.baseLen, prfKeySize] at *

/-! ## The serializer appends -/

theorem serializeVecRing_append {T : Type} [RingLayout T] (v : List T) (res : Bytes) :
    serializeVecRing v res = res ++ serializeVecRing v [] := by
  unfold serializeVecRing
  dsimp only
  split_ifs
  · simp
  · simp

theorem serializeInternal_append (v : NetworkValue) (res : Bytes) :
    v.serializeInternal res = (v.serializeInternal []).map (res ++ ·) := by
  unfold serializeInternal
  cases hd : v.getDescriptorByte with
  | error e => rfl
  | ok d =>
    rw [Outcome.ok_bind, Outcome.ok_bind]
    have hring : ∀ {T : Type} [RingLayout T] (v : List T),
        serializeVecRing v (res ++ [d]) = res ++ serializeVecRing v ([] ++ [d]) := by
      intro T _ v
      rw [serializeVecRing_append v (res ++ [d]), serializeVecRing_append v ([] ++ [d])]
      simp
    cases v with
    | vecRing16 v => exact congrArg Except.ok (hring v)
    | vecRing32 v => exact congrArg Except.ok (hring v)
    | vecRing64 v => exact congrArg Except.ok (hring v)
    | vecRing48 v => exact congrArg Except.ok (hring v)
    | networkVec v => rfl
    | preFramed frame =>
      refine congrArg Except.ok ?_
      simp
    | _ =>
      refine congrArg Except.ok ?_
      simp

theorem serializeAll_append (vs : List NetworkValue) (res : Bytes) :
    serializeAll vs res = (serializeAll vs []).map (res ++ ·) := by
  induction vs generalizing res with
  | nil => exact congrArg Except.ok (List.append_nil res).symm
  | cons v vs ih =>
    unfold serializeAll
    rw [serializeInternal_append v res]
    cases v.serializeInternal [] with
    | error e => rfl
    | ok bytes =>
      show serializeAll vs (res ++ bytes) = (serializeAll vs bytes).map (res ++ ·)
      rw [ih (res ++ bytes), ih bytes]
      cases serializeAll vs [] with
      | error e => rfl
      | ok rest => exact congrArg Except.ok (List.append_assoc res bytes rest)

theorem copyFromSlice_append (res bytes : Bytes) (start : Nat) (new : Bytes) :
    (res ++ bytes).copyFromSlice (res.length + start) new = (bytes.copyFromSlice start new).map (res ++ ·) := by
  unfold Bytes.copyFromSlice
  rw [List.length_append]
  by_cases hfits : start + new.length ≤ bytes.length
  · rw [if_pos hfits, if_pos (by omega), List.take_length_add_append, Nat.add_assoc, List.drop_length_add_append]
    exact congrArg Except.ok (by simp)
  · rw [if_neg hfits, if_neg (by omega)]
    rfl

/-- The serializer appends the bytes of a value to its buffer. -/
theorem serialize_append {v : NetworkValue} {bytes : Bytes} (h : v.toNetwork = .ok bytes) (res : Bytes) :
    v.serialize res = .ok (res ++ bytes) := by
  have hmap : v.serialize res = (v.serialize []).map (res ++ ·) := by
    cases v with
    | networkVec values =>
      show serializeVec values res = (serializeVec values []).map (res ++ ·)
      unfold serializeVec
      dsimp only
      rw [serializeAll_append values, serializeAll_append values ([] ++ [_] ++ _)]
      cases serializeAll values [] with
      | error e => rfl
      | ok body =>
        have hbuf : res ++ [DescriptorByte.networkVec.toByte] ++ [0, 0, 0, 0] ++ body =
            res ++ ([] ++ [DescriptorByte.networkVec.toByte] ++ [0, 0, 0, 0] ++ body) := by
          simp
        have hcopy := copyFromSlice_append res ([] ++ [DescriptorByte.networkVec.toByte] ++ [0, 0, 0, 0] ++ body) 1
        simp only [Except.map]
        rw [Outcome.ok_bind, Outcome.ok_bind, hbuf, List.length_append, List.length_append, List.length_singleton,
          Nat.add_sub_cancel_left]
        exact hcopy _
    | preFramed frame => rfl
    | _ => exact serializeInternal_append _ res
  rw [hmap, show v.serialize [] = .ok bytes from h]
  rfl

end AmpcCommon.Channel
