import AmpcCommon.Wire.Ring48
import AmpcCommon.Wire.Proofs.ParserProofs

/-!
# The 48-bit ring, proofs

A word is canonical when its upper bits are clear, and then it is determined by the element of `BitVec 48` it stands for
(`bits`). Every operation keeps the words canonical, and `bits` takes it to the operation of the ring of 48 bits; what
the operations do to the numbers follows from the lemmas on `BitVec 48`. The parser of the wire format pads six bytes
with zeros, so what it reads is canonical too.
-/

namespace AmpcCommon.Wire

namespace Ring48

/-! ## Words -/

theorem toNat_mask : mask.toNat = 2 ^ 48 - 1 := rfl

theorem toNat_and_mask (v : BitVec 64) : (v &&& mask).toNat = v.toNat % 2 ^ 48 := by
  rw [BitVec.toNat_and, toNat_mask, Nat.and_two_pow_sub_one_eq_mod]

theorem canonical_and_mask (v : BitVec 64) : (⟨v &&& mask⟩ : Ring48).Canonical := by
  unfold Canonical
  rw [toNat_and_mask]
  exact Nat.mod_lt _ (Nat.two_pow_pos 48)

@[simp] theorem bits_and_mask (v : BitVec 64) : (⟨v &&& mask⟩ : Ring48).bits = v.setWidth 48 := by
  apply BitVec.eq_of_toNat_eq
  unfold bits
  rw [BitVec.toNat_setWidth, BitVec.toNat_setWidth, toNat_and_mask, Nat.mod_mod]

theorem toNat_bits {x : Ring48} (hx : x.Canonical) : x.bits.toNat = x.val.toNat := by
  unfold bits
  rw [BitVec.toNat_setWidth]
  exact Nat.mod_eq_of_lt hx

/-! ## Canonical words -/

theorem canonical_ofUnsigned {w : Nat} (hw : w ≤ 48) (v : BitVec w) : (ofUnsigned v).Canonical := by
  have hlt : v.toNat < 2 ^ 48 := Nat.lt_of_lt_of_le v.isLt (Nat.pow_le_pow_right (by decide) hw)
  show (v.setWidth 64).toNat < 2 ^ 48
  rw [BitVec.toNat_setWidth]
  exact Nat.lt_of_le_of_lt (Nat.mod_le _ _) hlt

theorem canonical_ushiftRight {x : Ring48} (hx : x.Canonical) (k : Nat) : (⟨x.val >>> k⟩ : Ring48).Canonical := by
  show (x.val >>> k).toNat < 2 ^ 48
  rw [BitVec.toNat_ushiftRight, Nat.shiftRight_eq_div_pow]
  exact Nat.lt_of_le_of_lt (Nat.div_le_self _ _) hx

theorem Source.canonical (s : Source) : s.value.Canonical := by
  cases s with
  | fromBool b => exact canonical_ofUnsigned (by decide) _
  | fromU8 v => exact canonical_ofUnsigned (by decide) v
  | fromU16 v => exact canonical_ofUnsigned (by decide) v
  | fromU32 v => exact canonical_ofUnsigned (by decide) v
  | zero => exact Nat.two_pow_pos 48
  | one => exact Nat.one_lt_two_pow (by decide)
  | asRing48 x => exact canonical_and_mask _
  | masked v => exact canonical_and_mask _
  | sample word => exact canonical_and_mask _

theorem Unary.canonical (f : Unary) {x : Ring48} (hx : x.Canonical) : (f.apply x).Canonical := by
  cases f with
  | wrappingNeg => exact canonical_and_mask _
  | not => exact canonical_and_mask _
  | wrappingShl rhs => exact canonical_and_mask _
  | wrappingShr rhs => exact canonical_ushiftRight hx _
  | shl rhs => exact canonical_and_mask _
  | shr rhs => exact canonical_ushiftRight hx _

/-- The remainder and the bitwise operations rely on the masks of their operands. -/
theorem Binary.canonical (f : Binary) {x y z : Ring48} (hx : x.Canonical) (hy : y.Canonical)
    (h : f.apply x y = .ok z) : z.Canonical := by
  cases f with
  | rem =>
    simp only [Binary.apply, Ring48.rem] at h
    split_ifs at h with hzero
    · cases h
    · cases h
      show (x.val % y.val).toNat < 2 ^ 48
      rw [BitVec.toNat_umod]
      exact Nat.lt_of_le_of_lt (Nat.mod_le _ _) hx
  | bitxor =>
    cases h
    show (x.val ^^^ y.val).toNat < 2 ^ 48
    rw [BitVec.toNat_xor]
    exact Nat.xor_lt_two_pow hx hy
  | bitand =>
    cases h
    show (x.val &&& y.val).toNat < 2 ^ 48
    rw [BitVec.toNat_and]
    exact Nat.lt_of_le_of_lt Nat.and_le_left hx
  | bitor =>
    cases h
    show (x.val ||| y.val).toNat < 2 ^ 48
    rw [BitVec.toNat_or]
    exact Nat.or_lt_two_pow hx hy
  | add | sub | mul | wrappingAdd | wrappingSub | wrappingMul =>
    cases h
    exact canonical_and_mask _

/-- A successful bulk generation masks every element. -/
theorem fill_canonical {tryFill : Outcome Unit × List (BitVec 64)} {v : List Ring48} (h : fill tryFill = .ok v) :
    ∀ x ∈ v, x.Canonical := by
  obtain ⟨res, raw⟩ := tryFill
  cases res with
  | error e => cases h
  | ok _ =>
    cases h
    intro x hx
    obtain ⟨elem, -, rfl⟩ := List.mem_map.mp hx
    exact canonical_and_mask _

/-! ## The ring of 48 bits -/

section Bits

variable (x y : Ring48)

@[simp] theorem bits_add : (x + y).bits = x.bits + y.bits :=
  (bits_and_mask _).trans (BitVec.setWidth_add _ _ (by decide))

@[simp] theorem bits_mul : (x * y).bits = x.bits * y.bits :=
  (bits_and_mask _).trans (BitVec.setWidth_mul _ _ (by decide))

@[simp] theorem bits_wrappingNeg : x.wrappingNeg.bits = -x.bits :=
  (bits_and_mask _).trans (BitVec.setWidth_neg_of_le (by decide))

@[simp] theorem bits_sub : (x - y).bits = x.bits - y.bits := by
  refine (bits_and_mask _).trans ?_
  rw [BitVec.sub_eq_add_neg, BitVec.setWidth_add _ _ (by decide), BitVec.setWidth_neg_of_le (by decide),
    BitVec.sub_eq_add_neg]
  rfl

@[simp] theorem bits_not : x.not.bits = ~~~x.bits :=
  (bits_and_mask _).trans (BitVec.setWidth_not (by decide))

@[simp] theorem bits_bitxor : (x.bitxor y).bits = x.bits ^^^ y.bits := BitVec.setWidth_xor

@[simp] theorem bits_bitand : (x.bitand y).bits = x.bits &&& y.bits := BitVec.setWidth_and

@[simp] theorem bits_bitor : (x.bitor y).bits = x.bits ||| y.bits := BitVec.setWidth_or

theorem bits_shiftLeft (k : Nat) : (⟨(x.val <<< k) &&& mask⟩ : Ring48).bits = x.bits <<< k :=
  (bits_and_mask _).trans (BitVec.setWidth_shiftLeft_of_le (by decide))

end Bits

/-- What the operations do to the numbers `x` and `y`. -/
structure Modular (x y : Ring48) : Prop where
  add : (x + y).val.toNat = (x.val.toNat + y.val.toNat) % 2 ^ 48
  sub : ((x - y).val.toNat : Int) = ((x.val.toNat : Int) - y.val.toNat) % 2 ^ 48
  mul : (x * y).val.toNat = x.val.toNat * y.val.toNat % 2 ^ 48
  neg : (x.wrappingNeg.val.toNat : Int) = -(x.val.toNat : Int) % 2 ^ 48
  not : x.not.val.toNat = 2 ^ 48 - 1 - x.val.toNat
  shl : ∀ k < 64, (x.shl k).val.toNat = x.val.toNat * 2 ^ k % 2 ^ 48
  shr : ∀ k < 64, (x.shr k).val.toNat = x.val.toNat / 2 ^ k
  wrappingAdd : x.wrappingAdd y = x + y
  wrappingSub : x.wrappingSub y = x - y
  wrappingMul : x.wrappingMul y = x * y
  wrappingShl : ∀ k : BitVec 32, k.toNat < 64 → x.wrappingShl k = x.shl k.toNat
  wrappingShr : ∀ k : BitVec 32, k.toNat < 64 → x.wrappingShr k = x.shr k.toNat

theorem toNat_add_eq {x y : Ring48} (hx : x.Canonical) (hy : y.Canonical) :
    (x + y).val.toNat = (x.val.toNat + y.val.toNat) % 2 ^ 48 := calc
  (x + y).val.toNat = (x + y).bits.toNat := (toNat_bits (canonical_and_mask _)).symm
  _ = (x.bits.toNat + y.bits.toNat) % 2 ^ 48 := by rw [bits_add, BitVec.toNat_add]
  _ = (x.val.toNat + y.val.toNat) % 2 ^ 48 := by rw [toNat_bits hx, toNat_bits hy]

theorem toNat_mul_eq {x y : Ring48} (hx : x.Canonical) (hy : y.Canonical) :
    (x * y).val.toNat = x.val.toNat * y.val.toNat % 2 ^ 48 := calc
  (x * y).val.toNat = (x * y).bits.toNat := (toNat_bits (canonical_and_mask _)).symm
  _ = x.bits.toNat * y.bits.toNat % 2 ^ 48 := by rw [bits_mul, BitVec.toNat_mul]
  _ = x.val.toNat * y.val.toNat % 2 ^ 48 := by rw [toNat_bits hx, toNat_bits hy]

theorem toNat_sub_eq {x y : Ring48} (hx : x.Canonical) (hy : y.Canonical) :
    ((x - y).val.toNat : Int) = ((x.val.toNat : Int) - y.val.toNat) % 2 ^ 48 := by
  have hnat : (x - y).val.toNat = (2 ^ 48 - y.val.toNat + x.val.toNat) % 2 ^ 48 := calc
    (x - y).val.toNat = (x - y).bits.toNat := (toNat_bits (canonical_and_mask _)).symm
    _ = (2 ^ 48 - y.bits.toNat + x.bits.toNat) % 2 ^ 48 := by rw [bits_sub, BitVec.toNat_sub]
    _ = (2 ^ 48 - y.val.toNat + x.val.toNat) % 2 ^ 48 := by rw [toNat_bits hx, toNat_bits hy]
  unfold Canonical at hx hy
  omega

theorem toNat_wrappingNeg {x : Ring48} (hx : x.Canonical) :
    (x.wrappingNeg.val.toNat : Int) = -(x.val.toNat : Int) % 2 ^ 48 := by
  have hnat : x.wrappingNeg.val.toNat = (2 ^ 48 - x.val.toNat) % 2 ^ 48 := calc
    x.wrappingNeg.val.toNat = x.wrappingNeg.bits.toNat := (toNat_bits (canonical_and_mask _)).symm
    _ = (2 ^ 48 - x.bits.toNat) % 2 ^ 48 := by rw [bits_wrappingNeg, BitVec.toNat_neg]
    _ = (2 ^ 48 - x.val.toNat) % 2 ^ 48 := by rw [toNat_bits hx]
  unfold Canonical at hx
  omega

theorem toNat_not {x : Ring48} (hx : x.Canonical) : x.not.val.toNat = 2 ^ 48 - 1 - x.val.toNat := calc
  x.not.val.toNat = x.not.bits.toNat := (toNat_bits (canonical_and_mask _)).symm
  _ = 2 ^ 48 - 1 - x.bits.toNat := by rw [bits_not, BitVec.toNat_not]
  _ = 2 ^ 48 - 1 - x.val.toNat := by rw [toNat_bits hx]

theorem toNat_shl {x : Ring48} (hx : x.Canonical) {k : Nat} (hk : k < 64) :
    (x.shl k).val.toNat = x.val.toNat * 2 ^ k % 2 ^ 48 := by
  have hshl : x.shl k = ⟨(x.val <<< k) &&& mask⟩ := by
    unfold shl
    rw [Nat.mod_eq_of_lt hk]
  rw [hshl, ← toNat_bits (canonical_and_mask (x.val <<< k)), bits_shiftLeft, BitVec.toNat_shiftLeft,
    toNat_bits hx, Nat.shiftLeft_eq]

theorem toNat_shr (x : Ring48) {k : Nat} (hk : k < 64) : (x.shr k).val.toNat = x.val.toNat / 2 ^ k := by
  unfold shr
  rw [Nat.mod_eq_of_lt hk]
  exact (BitVec.toNat_ushiftRight _ _).trans (Nat.shiftRight_eq_div_pow _ _)

theorem Canonical.modular {x y : Ring48} (hx : x.Canonical) (hy : y.Canonical) : Modular x y where
  add := toNat_add_eq hx hy
  sub := toNat_sub_eq hx hy
  mul := toNat_mul_eq hx hy
  neg := toNat_wrappingNeg hx
  not := toNat_not hx
  shl _ hk := toNat_shl hx hk
  shr _ hk := toNat_shr x hk
  wrappingAdd := rfl
  wrappingSub := rfl
  wrappingMul := rfl
  wrappingShl _ _ := rfl
  wrappingShr _ _ := rfl

/-! ## The wire format -/

/-- The six bytes of a value on the wire. -/
def wireForm (x : Ring48) : Bytes := (RingLayout.toMem x).take (RingLayout.wireBytes Ring48)

theorem length_wireForm (x : Ring48) : x.wireForm.length = 6 := by
  unfold wireForm
  rw [List.length_take, roundTrips_ring48.length_toMem]
  rfl

end Ring48

namespace NetworkValue

theorem Decoded.canonical {v : NetworkValue} (h : v.Decoded) : ∀ x ∈ v.ring48s, x.Canonical := by
  intro x hx
  cases v with
  | ringElement48 y =>
    rw [ring48s, List.mem_singleton] at hx
    rw [hx]
    exact h
  | vecRing48 v => exact h x hx
  | networkVec vs => exact h.elim
  | _ => cases hx

theorem deserializeInternal_decoded {serialized : Bytes} {v : NetworkValue}
    (h : deserializeInternal serialized = .ok v) : v.Decoded := by
  cases serialized with
  | nil => cases h
  | cons b tail =>
    rw [deserializeInternal] at h
    simp only [List.isEmpty_cons, Bool.false_eq_true, if_false, Bytes.index_cons_zero, Outcome.ok_bind] at h
    obtain ⟨d, -, h⟩ := Outcome.bind_eq_ok.mp h
    exact ((deserializeBody_spec (List.cons_ne_nil b tail) d).inv h).2

/-- The loop of the vector parser keeps what all its values have in common. -/
theorem deserializeVecLoop_decoded {serialized : Bytes} {endIdx idx : Nat} {res vs : List NetworkValue}
    (h : deserializeVecLoop serialized endIdx idx res = .ok vs) (hres : ∀ v ∈ res, v.Decoded) :
    ∀ v ∈ vs, v.Decoded := by
  induction idx, res using deserializeVecLoop.induct serialized endIdx with
  | case1 idx res hidx e hlen =>
    rw [deserializeVecLoop_error hidx hlen] at h
    cases h
  | case2 idx res hidx n hlen e hvalue =>
    rw [deserializeVecLoop_step hidx hlen, hvalue] at h
    cases h
  | case3 idx res hidx n hlen value hvalue ih =>
    rw [deserializeVecLoop_step hidx hlen, hvalue] at h
    obtain ⟨element, -, hvalue⟩ := Outcome.bind_eq_ok.mp hvalue
    apply ih h
    intro v hv
    rcases List.mem_append.mp hv with hv | hv
    · exact hres v hv
    · rw [List.mem_singleton.mp hv]
      exact deserializeInternal_decoded hvalue
  | case4 idx res hidx =>
    rw [deserializeVecLoop_end hidx] at h
    cases h
    exact hres

theorem deserializeVec_decoded {serialized : Bytes} {vs : List NetworkValue}
    (h : deserializeVec serialized = .ok vs) : ∀ v ∈ vs, v.Decoded := by
  rw [deserializeVec] at h
  split_ifs at h
  · cases h
  · obtain ⟨b, -, h⟩ := Outcome.bind_eq_ok.mp h
    split_ifs at h
    · cases h
    · obtain ⟨payloadLen, -, h⟩ := Outcome.bind_eq_ok.mp h
      split_ifs at h
      · cases h
      · exact deserializeVecLoop_decoded h fun v hv => absurd hv List.not_mem_nil

theorem mem_ring48sAll {vs : List NetworkValue} {x : Ring48} (hx : x ∈ ring48sAll vs) :
    ∃ v ∈ vs, x ∈ v.ring48s := by
  induction vs with
  | nil => cases hx
  | cons v vs ih =>
    rcases List.mem_append.mp hx with hx | hx
    · exact ⟨v, List.mem_cons_self, hx⟩
    · obtain ⟨w, hw, hxw⟩ := ih hx
      exact ⟨w, List.mem_cons_of_mem v hw, hxw⟩

/-- Every element of `Ring48` in a message is canonical. -/
theorem deserialize_canonical {serialized : Bytes} {v : NetworkValue} (h : deserialize serialized = .ok v) :
    ∀ x ∈ v.ring48s, x.Canonical := by
  rw [deserialize] at h
  split_ifs at h
  · cases hvec : deserializeVec serialized with
    | error e =>
      rw [hvec] at h
      cases h
    | ok vs =>
      rw [hvec] at h
      cases h
      intro x hx
      obtain ⟨w, hw, hxw⟩ := mem_ring48sAll hx
      exact (deserializeVec_decoded hvec w hw).canonical x hxw
  · exact (deserializeInternal_decoded h).canonical

end NetworkValue

namespace Ring48

/-- The six bytes of a canonical value are read back, in a message of their own and as an element of a vector. -/
theorem Canonical.wire {x : Ring48} (hx : x.Canonical) :
    (NetworkValue.ringElement48 x).toNetwork = .ok (DescriptorByte.ringElement48.toByte :: x.wireForm) ∧
      NetworkValue.deserialize (DescriptorByte.ringElement48.toByte :: x.wireForm) =
        .ok (.ringElement48 x) ∧
      RingLayout.ofMem (x.wireForm ++ [0, 0]) = x := by
  obtain ⟨hser, hdes⟩ := deserialize_serialize_flat (v := .ringElement48 x) hx
  exact ⟨hser, hdes, roundTrips_ring48.ofMem_toMem x hx⟩

/-- A vector of canonical values is read back. -/
theorem vec_wire {v : List Ring48} (hv : ∀ x ∈ v, x.Canonical) (hlen : v.length * 6 < 2 ^ 32) :
    ∃ wire, (NetworkValue.vecRing48 v).toNetwork = .ok wire ∧ NetworkValue.deserialize wire = .ok (.vecRing48 v) :=
  ⟨_, deserialize_serialize_flat (v := .vecRing48 v) ⟨hlen, hv⟩⟩

/-! ## Runs -/

theorem Op.canonical {regs : List Ring48} (hregs : ∀ x ∈ regs, x.Canonical) (op : Op) :
    ∀ x ∈ op.yields regs, x.Canonical := by
  intro z hz
  cases op with
  | source s =>
    rw [List.mem_singleton.mp hz]
    exact s.canonical
  | unary f i =>
    obtain ⟨x, hx, rfl⟩ := Option.map_eq_some_iff.mp (Option.mem_toList.mp hz)
    exact f.canonical (hregs x (List.mem_of_getElem? hx))
  | binary f i j =>
    rw [yields] at hz
    split at hz
    · rename_i x y hx hy
      cases happly : f.apply x y with
      | error e =>
        rw [happly] at hz
        cases hz
      | ok w =>
        rw [happly] at hz
        rw [List.mem_singleton.mp hz]
        exact f.canonical (hregs x (List.mem_of_getElem? hx)) (hregs y (List.mem_of_getElem? hy)) happly
    · cases hz
  | fill tryFill =>
    rw [yields] at hz
    cases hfill : Ring48.fill tryFill with
    | error e =>
      rw [hfill] at hz
      cases hz
    | ok v =>
      rw [hfill] at hz
      exact fill_canonical hfill z hz
  | deserialize serialized =>
    rw [yields] at hz
    cases hvalue : NetworkValue.deserialize serialized with
    | error e =>
      rw [hvalue] at hz
      cases hz
    | ok v =>
      rw [hvalue] at hz
      exact NetworkValue.deserialize_canonical hvalue z hz

/-- Every value of a run is canonical. -/
theorem run_canonical (ops : List Op) {regs : List Ring48} (hregs : ∀ x ∈ regs, x.Canonical) :
    ∀ x ∈ run regs ops, x.Canonical := by
  induction ops generalizing regs with
  | nil => exact hregs
  | cons op ops ih =>
    apply ih
    intro x hx
    rcases List.mem_append.mp hx with hx | hx
    · exact hregs x hx
    · exact Op.canonical hregs op x hx

/-- **The 48-bit ring.** When a program starts with values below `2^48`, all its values are, whatever it computes, draws
and receives; its operations are the operations on integers modulo `2^48`, and the wire format of its values gives them
back. -/
theorem ring48_canonical_and_modular (regs : List Ring48) (ops : List Op) (hregs : ∀ x ∈ regs, x.Canonical) :
    (∀ x ∈ run regs ops, x.Canonical) ∧
      (∀ x ∈ run regs ops, ∀ y ∈ run regs ops, Modular x y) ∧
      (∀ x ∈ run regs ops, x.wireForm.length = 6 ∧
        (NetworkValue.ringElement48 x).toNetwork = .ok (DescriptorByte.ringElement48.toByte :: x.wireForm) ∧
        NetworkValue.deserialize (DescriptorByte.ringElement48.toByte :: x.wireForm) = .ok (.ringElement48 x) ∧
        RingLayout.ofMem (x.wireForm ++ [0, 0]) = x) ∧
      ∀ v : List Ring48, (∀ x ∈ v, x ∈ run regs ops) → v.length * 6 < 2 ^ 32 →
        ∃ wire, (NetworkValue.vecRing48 v).toNetwork = .ok wire ∧
          NetworkValue.deserialize wire = .ok (.vecRing48 v) := by
  have hrun := run_canonical ops hregs
  refine ⟨hrun, ?_, ?_, ?_⟩
  · intro x hx y hy
    exact (hrun x hx).modular (hrun y hy)
  · intro x hx
    exact ⟨length_wireForm x, (hrun x hx).wire⟩
  · intro v hv hlen
    exact vec_wire (fun x hx => hrun x (hv x hx)) hlen

/-- A sum that passes `2^48`, a complement, a bulk generation whose words have all bits set, and a message with the
largest value. -/
theorem ring48_run_at_maximum :
    (∀ x ∈ run [⟨5⟩, ⟨2 ^ 48 - 1⟩] [.binary .add 0 1, .unary .not 0, .fill (.ok (), [BitVec.allOnes 64]),
        .deserialize [0x0D, 0xff, 0xff, 0xff, 0xff, 0xff, 0xff]], x.Canonical) ∧
      (⟨5⟩ + ⟨2 ^ 48 - 1⟩ : Ring48).val.toNat = (5 + (2 ^ 48 - 1)) % 2 ^ 48 ∧
      (⟨5⟩ + ⟨2 ^ 48 - 1⟩ : Ring48) = ⟨4⟩ := by
  have h := ring48_canonical_and_modular [⟨5⟩, ⟨2 ^ 48 - 1⟩] [.binary .add 0 1, .unary .not 0,
    .fill (.ok (), [BitVec.allOnes 64]), .deserialize [0x0D, 0xff, 0xff, 0xff, 0xff, 0xff, 0xff]] (by decide)
  refine ⟨h.1, ?_, by decide⟩
  refine (h.2.1 ⟨5⟩ ?_ ⟨2 ^ 48 - 1⟩ ?_).add
  · exact List.mem_cons_self
  · exact List.mem_cons_of_mem _ List.mem_cons_self

end Ring48

end AmpcCommon.Wire
