import AmpcCommon.Wire.Ring48
import AmpcCommon.Wire.Proofs.CodecProofs

/-!
# The parser of flat values

The parser of flat values accepts a string, or it rejects it with an error; it never panics. It accepts a string when
its length is the one that its descriptor and its length field ask for, and the body of a vector consists of whole words
(`deserializeBody_spec`). The values it gives have no upper bits in their elements of `Ring48`.
-/

namespace AmpcCommon.Wire

open NetworkValue

theorem DescriptorByte.tryFrom_returns (b : UInt8) : (tryFrom b).Returns := by
  rw [tryFrom]
  split <;> trivial

theorem DescriptorByte.tryFrom_eq_ok {b : UInt8} {d : DescriptorByte} (h : tryFrom b = .ok d) :
    b = d.toByte := by
  rw [tryFrom] at h
  split at h
  · rename_i d' hd'
    cases h
    have hbeq := List.find?_some hd'
    exact (beq_iff_eq.mp hbeq).symm
  · cases h

section Reading

variable {serialized : Bytes} {k i : Nat}

/-- Reading inside of the buffer gives a number. -/
theorem readLe_eq_ok (h : i + k ≤ serialized.length) :
    readLe k serialized i = .ok (LittleEndian.decode ((serialized.drop i).take k)) := by
  rw [readLe, Bytes.slice_eq_ok (by omega) h, Outcome.ok_bind, Nat.add_sub_cancel_left,
    Bytes.fromLeBytes, if_pos]
  rw [List.length_take, List.length_drop]
  omega

/-- Reading does not look behind the bytes it reads. -/
theorem readLe_append_right (h : i + k ≤ serialized.length) (after : Bytes) :
    readLe k (serialized ++ after) i = readLe k serialized i := by
  rw [readLe_eq_ok h, readLe_eq_ok (by simp; omega), List.drop_append_of_le_length (by omega),
    List.take_append_of_le_length (by simp; omega)]

theorem slice_append_left (before rest : Bytes) (i j : Nat) :
    Bytes.slice (before ++ rest) (before.length + i) (before.length + j) = rest.slice i j := by
  simp only [Bytes.slice, List.length_append]
  by_cases h : i ≤ j ∧ j ≤ rest.length
  · rw [if_pos h, if_pos ⟨by omega, by omega⟩, ← List.drop_drop, List.drop_left,
      Nat.add_sub_add_left]
  · rw [if_neg h, if_neg]
    rintro ⟨h1, h2⟩
    exact h ⟨by omega, by omega⟩

theorem readLe_append_left (before rest : Bytes) (k i : Nat) :
    readLe k (before ++ rest) (before.length + i) = readLe k rest i := by
  rw [readLe, readLe, Nat.add_assoc, slice_append_left]

end Reading

/-! ## Kinds of values -/

/-- How the vector parser finds the length of an element. -/
inductive ElementKind where
  /-- `n` bytes in all -/
  | fixed (n : Nat)
  /-- A length field, from which `f` computes the length of the body. -/
  | field (f : Nat → Nat)
  | refused

def DescriptorByte.kind : DescriptorByte → ElementKind
  | .ringElementBit0 | .ringElementBit1 => .fixed 1
  | .ringElement16 => .fixed 3
  | .ringElement32 => .fixed 5
  | .ringElement64 => .fixed 9
  | .ringElement48 => .fixed 7
  | .vecRing16 | .vecRing32 | .vecRing64 | .vecRing48 | .bytes => .field id
  | .vecRingBit => .field fun bitCount => (bitCount + 7) / 8
  | .prfKey | .stateChecksum | .networkVec | .prfCheck => .refused

/-- The width of the words in the body of a vector of the given kind. -/
def DescriptorByte.width : DescriptorByte → Nat
  | .vecRing16 => 2
  | .vecRing32 => 4
  | .vecRing64 => 8
  | .vecRing48 => 6
  | _ => 1

/-- The parser of flat values accepts three more kinds, of a fixed length. -/
def DescriptorByte.flatKind : DescriptorByte → ElementKind
  | .prfKey => .fixed (1 + prfKeySize)
  | .prfCheck => .fixed (1 + 16)
  | .stateChecksum => .fixed (1 + 8 * 2)
  | d => d.kind

theorem DescriptorByte.flatKind_eq {d : DescriptorByte} (h : d.kind ≠ .refused) : d.flatKind = d.kind := by
  cases d with
  | prfKey | prfCheck | stateChecksum => exact absurd rfl h
  | _ => rfl

/-- The string has the length its kind asks for. -/
def ElementKind.Sized (serialized : Bytes) : ElementKind → Prop
  | .fixed n => serialized.length = n
  | .field f => ∃ len, readU32 serialized 1 = .ok len ∧ serialized.length = 5 + f len
  | .refused => False

/-- The strings that the parser of flat values accepts. -/
def DescriptorByte.Accepts (d : DescriptorByte) (serialized : Bytes) : Prop :=
  d.flatKind.Sized serialized ∧ d.width ∣ serialized.length - 5

/-! ## Values -/

namespace Ring48

/-- The word of at most six bytes, padded with zeros. -/
theorem canonical_ofMem {src : Bytes} (hsrc : src.length ≤ 6) (m : Nat) :
    (RingLayout.ofMem (src ++ List.replicate m 0) : Ring48).Canonical := by
  have hlt : LittleEndian.decode src < 256 ^ 6 :=
    Nat.lt_of_lt_of_le (LittleEndian.decode_lt src) (Nat.pow_le_pow_right (by decide) hsrc)
  show (BitVec.ofNat 64 (LittleEndian.decode (src ++ List.replicate m 0))).toNat < 2 ^ 48
  rw [LittleEndian.decode_append_zeros, BitVec.toNat_ofNat]
  exact Nat.lt_of_le_of_lt (Nat.mod_le _ _) hlt

end Ring48

/-- What the parser of flat values gives: no nested vector and no frame, and canonical elements of `Ring48`. -/
def NetworkValue.Decoded : NetworkValue → Prop
  | .ringElement48 x => x.Canonical
  | .vecRing48 v => ∀ x ∈ v, x.Canonical
  | .networkVec _ => False
  | .preFramed _ => False
  | _ => True

/-! ## The parser -/

section Parser

variable {serialized : Bytes}

theorem sized_field_iff {f : Nat → Nat} {len : Nat} (hread : readU32 serialized 1 = .ok len) :
    (ElementKind.field f).Sized serialized ↔ serialized.length = 5 + f len := by
  constructor
  · rintro ⟨len', hread', hlen⟩
    rw [hread] at hread'
    cases hread'
    exact hlen
  · intro hlen
    exact ⟨len, hread, hlen⟩

/-- A length field that is in the string. -/
theorem exists_readU32 (h : ¬ serialized.length < 5) : ∃ len, readU32 serialized 1 = .ok len :=
  ⟨_, readLe_eq_ok (by omega)⟩

theorem not_sized_field (f : Nat → Nat) (h : serialized.length < 5) : ¬ (ElementKind.field f).Sized serialized := by
  rintro ⟨len, -, hlen⟩
  omega

theorem deserializeVecRing_bail {T : Type} [RingLayout T] {len : Nat}
    (hread : readU32 serialized 1 = .ok len) (hlen : serialized.length = 5 + len)
    (hdiv : ¬ len % RingLayout.wireBytes T = 0) :
    ∃ msg, deserializeVecRing T serialized = .bail msg := by
  have hshort : ¬ 5 + len < 5 := by omega
  simp only [deserializeVecRing, hlen, if_neg hshort, hread, Outcome.ok_bind, ne_eq,
    not_true_eq_false, if_false, hdiv, not_false_eq_true, if_true]
  exact ⟨_, rfl⟩

/-- The vector parser accepts a body of whole words, and every element it reads is the padded word of one chunk. -/
theorem deserializeVecRing_spec (T : Type) [RingLayout T] (serialized : Bytes) :
    Outcome.Decides
      ((ElementKind.field id).Sized serialized ∧ RingLayout.wireBytes T ∣ serialized.length - 5)
      (fun v => ∀ x ∈ v, ∃ src : Bytes, src.length ≤ RingLayout.wireBytes T ∧
        x = RingLayout.ofMem (src ++ List.replicate (RingLayout.size T - RingLayout.wireBytes T) 0))
      (deserializeVecRing T serialized) := by
  by_cases hshort : serialized.length < 5
  · simp only [deserializeVecRing, if_pos hshort]
    exact .of_bail (fun h => not_sized_field id hshort h.1) _
  obtain ⟨len, hread⟩ := exists_readU32 hshort
  rw [sized_field_iff hread, id_eq]
  by_cases hlen : serialized.length = 5 + len
  · have hsub : serialized.length - 5 = len := by omega
    rw [hsub, Nat.dvd_iff_mod_eq_zero]
    by_cases hdiv : len % RingLayout.wireBytes T = 0
    · refine (Outcome.Decides.of_ok (deserializeVecRing_eq hread hlen hdiv) fun x hx => ?_).congr
        (iff_true_intro ⟨hlen, hdiv⟩)
      rw [LittleEndian.chunks_eq_map_range, List.map_map] at hx
      obtain ⟨i, -, rfl⟩ := List.mem_map.mp hx
      exact ⟨_, List.length_take_le _ _, rfl⟩
    · obtain ⟨msg, hbail⟩ := deserializeVecRing_bail (T := T) hread hlen hdiv
      rw [hbail]
      exact .of_bail (fun h => hdiv h.2) msg
  · obtain ⟨msg, hbail⟩ : ∃ msg, deserializeVecRing T serialized = .bail msg := by
      simp only [deserializeVecRing, if_neg hshort, hread, Outcome.ok_bind, ne_eq, hlen, not_false_eq_true, if_true]
      exact ⟨_, rfl⟩
    rw [hbail]
    exact .of_bail (fun h => hlen h.1) msg

/-- **The parser of flat values**, by descriptor. -/
theorem deserializeBody_spec (hne : serialized ≠ []) (d : DescriptorByte) :
    Outcome.Decides (d.Accepts serialized) Decoded (deserializeBody serialized d) := by
  -- the bytes behind the descriptor, when the length is the one of the kind
  have hfixed : ∀ {n : Nat} {msg : String} {o : Outcome NetworkValue},
      (serialized.length = n → ∃ v, o = .ok v ∧ v.Decoded) → d.flatKind = .fixed n → d.width = 1 →
      Outcome.Decides (d.Accepts serialized) Decoded (if serialized.length ≠ n then .bail msg else o) := by
    intro n msg o ho hkind hwidth
    unfold DescriptorByte.Accepts
    rw [hkind, hwidth]
    refine (Outcome.Decides.check (P := True) msg fun hn => ?_).congr ?_
    · exact .inl ⟨trivial, ho (not_not.mp hn)⟩
    · simp [ElementKind.Sized]
  have hvec : ∀ {T : Type} [RingLayout T] {f : List T → NetworkValue},
      (∀ v : List T, (∀ x ∈ v, ∃ src : Bytes, src.length ≤ RingLayout.wireBytes T ∧
        x = RingLayout.ofMem (src ++ List.replicate (RingLayout.size T - RingLayout.wireBytes T) 0)) → (f v).Decoded) →
      d.flatKind = .field id → d.width = RingLayout.wireBytes T →
      Outcome.Decides (d.Accepts serialized) Decoded (deserializeVecRing T serialized >>= fun v => pure (f v)) := by
    intro T _ f hf hkind hwidth
    unfold DescriptorByte.Accepts
    rw [hkind, hwidth]
    exact (deserializeVecRing_spec T serialized).bind fun v hv => .of_ok rfl (hf v hv)
  -- a length field and the bytes behind it
  have hfield : ∀ {g : Nat → Nat} {msg : String} {msg' : Nat → String} {f : Bytes → Nat → NetworkValue},
      (∀ bs len, (f bs len).Decoded) → d.flatKind = .field g → d.width = 1 →
      Outcome.Decides (d.Accepts serialized) Decoded
        (if serialized.length < 5 then .bail msg
          else readU32 serialized 1 >>= fun len =>
            if serialized.length ≠ 5 + g len then .bail (msg' len)
            else serialized.slice 5 (5 + g len) >>= fun bs => pure (f bs len)) := by
    intro g msg msg' f hf hkind hwidth
    unfold DescriptorByte.Accepts
    rw [hkind, hwidth]
    refine (Outcome.Decides.check (P := (ElementKind.field g).Sized serialized) msg fun hlong => ?_).congr ?_
    · obtain ⟨len, hread⟩ := exists_readU32 hlong
      rw [hread, Outcome.ok_bind, sized_field_iff hread]
      refine (Outcome.Decides.check (P := True) (msg' len) fun hlen => ?_).congr (by rw [and_true, not_not])
      rw [Bytes.slice_eq_ok (by omega) (le_of_eq (not_not.mp hlen).symm)]
      exact .of_ok rfl (hf _ len)
    · constructor
      · rintro ⟨hsized, -⟩
        exact ⟨fun hshort => not_sized_field g hshort hsized, hsized⟩
      · rintro ⟨-, hsized⟩
        exact ⟨hsized, one_dvd _⟩
  cases d with
  | ringElement16 =>
    refine hfixed (fun hlen => ?_) rfl rfl
    rw [readLe_eq_ok (by omega)]
    exact ⟨_, rfl, trivial⟩
  | ringElement32 =>
    refine hfixed (fun hlen => ?_) rfl rfl
    rw [readLe_eq_ok (by omega)]
    exact ⟨_, rfl, trivial⟩
  | ringElement64 =>
    refine hfixed (fun hlen => ?_) rfl rfl
    rw [readLe_eq_ok (by omega)]
    exact ⟨_, rfl, trivial⟩
  | prfCheck =>
    refine hfixed (fun hlen => ?_) rfl rfl
    rw [readLe_eq_ok (by omega)]
    exact ⟨_, rfl, trivial⟩
  | ringElementBit0 =>
    obtain ⟨b, tail, rfl⟩ := List.exists_cons_of_ne_nil hne
    exact hfixed (fun _ => ⟨_, rfl, trivial⟩) rfl rfl
  | ringElementBit1 =>
    obtain ⟨b, tail, rfl⟩ := List.exists_cons_of_ne_nil hne
    exact hfixed (fun _ => ⟨_, rfl, trivial⟩) rfl rfl
  | vecRing16 => exact hvec (fun _ _ => trivial) rfl rfl
  | vecRing32 => exact hvec (fun _ _ => trivial) rfl rfl
  | vecRing64 => exact hvec (fun _ _ => trivial) rfl rfl
  | vecRing48 =>
    refine hvec (fun v hv x hx => ?_) rfl rfl
    obtain ⟨src, hsrc, rfl⟩ := hv x hx
    exact Ring48.canonical_ofMem hsrc _
  | networkVec => exact .of_bail (fun h => h.1) _
  | ringElement48 =>
    refine hfixed (fun hlen => ?_) rfl rfl
    rw [Bytes.slice_eq_ok (by omega) (by omega), Outcome.ok_bind, Bytes.fromLeBytes, if_pos (by simp [hlen])]
    exact ⟨_, rfl, Ring48.canonical_ofMem (List.length_take_le _ _) 2⟩
  | prfKey =>
    refine hfixed (fun hlen => ?_) rfl rfl
    rw [Bytes.slice_eq_ok (by omega) (by omega), Outcome.ok_bind, dif_pos (by simp [hlen])]
    exact ⟨_, rfl, trivial⟩
  | stateChecksum =>
    refine hfixed (fun hlen => ?_) rfl rfl
    rw [readLe_eq_ok (by omega), readLe_eq_ok (by omega)]
    exact ⟨_, rfl, trivial⟩
  | bytes => exact hfield (fun _ _ => trivial) rfl rfl
  | vecRingBit => exact hfield (fun _ _ => trivial) rfl rfl

end Parser

end AmpcCommon.Wire
