import AmpcCommon.Galois.Embedding
import AmpcCommon.Galois.Proofs.ReconstructProofs

/-!
# Iris embeddings: texts and reconstruction

The texts are exact, with a codec that keeps its laws: a text is accepted when it is the text of a value, and gives
this value. Every chunk of a shared vector is shared by an encoder (`elementAt_loop`), so that what holds for one ring
element carries over to the vector.
-/

namespace AmpcCommon.Galois

open GaloisRingElement ShamirGaloisRingShare

/-! ## Texts -/

section Text

variable {engine : Base64.Engine}

theorem map_toBitVec_ofBitVec (data : List (BitVec 8)) : (data.map UInt8.ofBitVec).map UInt8.toBitVec = data := by
  rw [List.map_map]
  exact List.map_id data

theorem map_ofBitVec_toBitVec (bytes : Bytes) : (bytes.map UInt8.toBitVec).map UInt8.ofBitVec = bytes := by
  rw [List.map_map]
  exact List.map_id bytes

/-- A text that is an encoding of bytes is read as these bytes. -/
theorem IrisVector.fromBase64_encode (h : engine.Lawful Base64.standard) (bytes : Bytes) :
    IrisVector.fromBase64 engine (engine.encode bytes) =
      if h : bytes.length = irisVectorSize then .ok ⟨bytes.map UInt8.toBitVec, by rw [List.length_map, h]⟩
      else .bail s!"Invalid IrisVector base64 length: expected {irisVectorSize} bytes, got {bytes.length}" := by
  unfold IrisVector.fromBase64
  rw [h.decode_encode]

theorem IrisVector.fromBase64_eq_ok (h : engine.Lawful Base64.standard) {s : Bytes} {v : IrisVector} :
    IrisVector.fromBase64 engine s = .ok v ↔ v.toBase64 engine = s := by
  constructor
  · intro hread
    unfold IrisVector.fromBase64 at hread
    split at hread
    · cases hread
    · rename_i bytes hdecode
      split at hread
      · cases hread
        unfold IrisVector.toBase64
        rw [map_ofBitVec_toBitVec]
        exact h.decode_eq_ok_iff.mp hdecode
      · cases hread
  · rintro rfl
    unfold IrisVector.toBase64
    rw [IrisVector.fromBase64_encode h, dif_pos (by rw [List.length_map, v.size])]
    congr
    exact map_toBitVec_ofBitVec v.data

theorem flatten_chunks (w n : Nat) (bytes : Bytes) (h : bytes.length = n * w) :
    (LittleEndian.chunks w n bytes).flatten = bytes := by
  induction n generalizing bytes with
  | zero =>
    rw [Nat.zero_mul] at h
    exact (List.length_eq_zero_iff.mp h).symm
  | succ n ih =>
    rw [Nat.add_mul, Nat.one_mul] at h
    rw [LittleEndian.chunks, List.flatten_cons, ih (bytes.drop w) (by rw [List.length_drop]; omega)]
    exact List.take_append_drop w bytes

theorem ofLeBytes_leBytes (values : List (BitVec 16)) : ofLeBytes values.length (leBytes values) = values := by
  have hchunks := LittleEndian.chunks_flatten (w := 2)
    (values.map fun value => LittleEndian.encode 2 value.toNat) (by simp)
  rw [List.length_map] at hchunks
  unfold ofLeBytes leBytes
  rw [hchunks, List.map_map]
  refine (List.map_congr_left fun value _ => ?_).trans (List.map_id values)
  show BitVec.ofNat 16 (LittleEndian.decode (LittleEndian.encode 2 value.toNat)) = value
  rw [LittleEndian.decode_encode_of_lt value.isLt, BitVec.ofNat_toNat, BitVec.setWidth_eq]

theorem length_of_mem_chunks {w n : Nat} {bytes chunk : Bytes} (h : bytes.length = n * w)
    (hmem : chunk ∈ LittleEndian.chunks w n bytes) : chunk.length = w := by
  induction n generalizing bytes with
  | zero => cases hmem
  | succ n ih =>
    rw [Nat.add_mul, Nat.one_mul] at h
    rcases List.mem_cons.mp hmem with rfl | hmem
    · rw [List.length_take]
      omega
    · exact ih (by rw [List.length_drop]; omega) hmem

theorem leBytes_ofLeBytes {n : Nat} {bytes : Bytes} (h : bytes.length = n * 2) :
    leBytes (ofLeBytes n bytes) = bytes := by
  unfold leBytes ofLeBytes
  rw [List.map_map]
  refine Eq.trans (congrArg List.flatten ?_) (flatten_chunks 2 n bytes h)
  refine (List.map_congr_left fun chunk hmem => ?_).trans (List.map_id _)
  have hlength := length_of_mem_chunks h hmem
  have hlt : LittleEndian.decode chunk < 2 ^ 16 := by
    have h := LittleEndian.decode_lt chunk
    rwa [hlength] at h
  show LittleEndian.encode 2 (BitVec.ofNat 16 (LittleEndian.decode chunk)).toNat = chunk
  rw [BitVec.toNat_ofNat, Nat.mod_eq_of_lt hlt]
  have hencode := LittleEndian.encode_decode chunk
  rwa [hlength] at hencode

theorem length_leBytes (values : List (BitVec 16)) : (leBytes values).length = values.length * 2 := by
  unfold leBytes
  rw [LittleEndian.length_flatten (w := 2) (by simp), List.length_map]

theorem IrisSecretSharedVector.fromBase64_encode (h : engine.Lawful Base64.standard) (bytes : Bytes) :
    IrisSecretSharedVector.fromBase64 engine (engine.encode bytes) =
      if bytes.length = irisVectorSize * 2 then .ok ⟨ofLeBytes irisVectorSize bytes, length_ofLeBytes _ _⟩
      else .bail (s!"Invalid IrisSecretSharedVector base64 length: expected {irisVectorSize * 2} bytes " ++
        s!"({irisVectorSize} u16 elements), got {bytes.length}") := by
  unfold IrisSecretSharedVector.fromBase64
  rw [h.decode_encode]

theorem IrisSecretSharedVector.fromBase64_eq_ok (h : engine.Lawful Base64.standard) {s : Bytes}
    {share : IrisSecretSharedVector} :
    IrisSecretSharedVector.fromBase64 engine s = .ok share ↔ share.toBase64 engine = s := by
  constructor
  · intro hread
    unfold IrisSecretSharedVector.fromBase64 at hread
    split at hread
    · cases hread
    · rename_i bytes hdecode
      split at hread
      · rename_i hlength
        cases hread
        unfold IrisSecretSharedVector.toBase64
        rw [leBytes_ofLeBytes hlength]
        exact h.decode_eq_ok_iff.mp hdecode
      · cases hread
  · rintro rfl
    unfold IrisSecretSharedVector.toBase64
    rw [IrisSecretSharedVector.fromBase64_encode h, if_pos (by rw [length_leBytes, share.size])]
    congr
    have hdata := ofLeBytes_leBytes share.data
    rwa [share.size] at hdata

end Text

theorem setWidth_setWidth_of_lt {chunk : BitVec 32} (h : chunk.toNat < 2 ^ 16) :
    (chunk.setWidth 16).setWidth 32 = chunk := by
  apply BitVec.eq_of_toNat_eq
  rw [BitVec.toNat_setWidth, BitVec.toNat_setWidth, Nat.mod_eq_of_lt h, Nat.mod_eq_of_lt chunk.isLt]

theorem IrisSecretSharedVector.fromProtobufShare_eq_ok {convert : String} {pbShare : List (BitVec 32)}
    {share : IrisSecretSharedVector} :
    IrisSecretSharedVector.fromProtobufShare convert pbShare = .ok share ↔
      share.data.map (fun value => value.setWidth 32) = pbShare := by
  unfold IrisSecretSharedVector.fromProtobufShare
  constructor
  · intro h
    split at h
    · split at h
      · rename_i hall
        cases h
        rw [List.map_map]
        refine (List.map_congr_left fun chunk hmem => ?_).trans (List.map_id pbShare)
        exact setWidth_setWidth_of_lt (by simpa using List.all_eq_true.mp hall chunk hmem)
      · cases h
    · cases h
  · rintro rfl
    have hall : (share.data.map fun value => value.setWidth 32).all (fun chunk => chunk.toNat < 2 ^ 16) = true := by
      rw [List.all_map, List.all_eq_true]
      intro value hmem
      have hlt := value.isLt
      have hvalue : (value.setWidth 32).toNat = value.toNat := by
        rw [BitVec.toNat_setWidth, Nat.mod_eq_of_lt (by omega)]
      show decide ((value.setWidth 32).toNat < 2 ^ 16) = true
      rw [hvalue]
      exact decide_eq_true hlt
    rw [dif_pos (by rw [List.length_map, share.size]), if_pos hall]
    refine congrArg _ (IrisSecretSharedVector.ext ?_)
    show (share.data.map fun value => value.setWidth 32).map (fun chunk => chunk.setWidth 16) = share.data
    rw [List.map_map]
    refine (List.map_congr_left fun value _ => ?_).trans (List.map_id share.data)
    show (value.setWidth 32).setWidth 16 = value
    rw [BitVec.setWidth_setWidth_of_le value (by decide), BitVec.setWidth_eq]

/-- **The forms are exact.** A text is accepted as a vector or as a share if and only if it is the text of one, and then
it is read as this one; its length is fixed, and the text of any other number of bytes is refused with this number. The
values of a protobuf message are accepted as a share if and only if they are its values. -/
theorem embedding_forms_exact (engine : Base64.Engine) (h : engine.Lawful Base64.standard) (convert : String) :
    (∀ s v, IrisVector.fromBase64 engine s = .ok v ↔ v.toBase64 engine = s) ∧
    (∀ s share, IrisSecretSharedVector.fromBase64 engine s = .ok share ↔ share.toBase64 engine = s) ∧
    (∀ pbShare share, IrisSecretSharedVector.fromProtobufShare convert pbShare = .ok share ↔
      share.data.map (fun value => value.setWidth 32) = pbShare) ∧
    (∀ v : IrisVector, (v.toBase64 engine).length = 684) ∧
    (∀ share : IrisSecretSharedVector, (share.toBase64 engine).length = 1368) ∧
    ∀ bytes, (bytes.length ≠ irisVectorSize →
      IrisVector.fromBase64 engine (engine.encode bytes) =
        .bail s!"Invalid IrisVector base64 length: expected {irisVectorSize} bytes, got {bytes.length}") ∧
      (bytes.length ≠ irisVectorSize * 2 →
        IrisSecretSharedVector.fromBase64 engine (engine.encode bytes) =
          .bail (s!"Invalid IrisSecretSharedVector base64 length: expected {irisVectorSize * 2} bytes " ++
            s!"({irisVectorSize} u16 elements), got {bytes.length}")) := by
  refine ⟨fun s v => IrisVector.fromBase64_eq_ok h, fun s share => IrisSecretSharedVector.fromBase64_eq_ok h,
    fun pbShare share => IrisSecretSharedVector.fromProtobufShare_eq_ok, fun v => ?_, fun share => ?_,
    fun bytes => ⟨fun hbytes => ?_, fun hbytes => ?_⟩⟩
  · unfold IrisVector.toBase64
    rw [h.length_encode, List.length_map, v.size]
    rfl
  · unfold IrisSecretSharedVector.toBase64
    rw [h.length_encode, length_leBytes, share.size]
    rfl
  · rw [IrisVector.fromBase64_encode h, dif_neg hbytes]
  · rw [IrisSecretSharedVector.fromBase64_encode h, if_neg hbytes]

/-- The codec of the standard alphabet. -/
def standardEngine : Base64.Engine := Base64.standard.engine fun _ => "Invalid padding"

/-- The vector of the values 0 to 255, twice. -/
def countingVector : IrisVector where
  data := (List.range 512).map (BitVec.ofNat 8)
  size := by rw [List.length_map, List.length_range]; rfl

theorem embedding_forms_exact_counting :
    IrisVector.fromBase64 standardEngine (countingVector.toBase64 standardEngine) = .ok countingVector ∧
    (countingVector.toBase64 standardEngine).length = 684 ∧
    IrisVector.fromBase64 standardEngine (standardEngine.encode [1, 2, 3]) =
      .bail s!"Invalid IrisVector base64 length: expected {irisVectorSize} bytes, got {3}" := by
  obtain ⟨hvector, -, -, hlength, -, hrefused⟩ := embedding_forms_exact standardEngine
    (Base64.Alphabet.engine_lawful _) "out of range integral type conversion attempted"
  exact ⟨(hvector _ _).mpr rfl, hlength _, (hrefused [1, 2, 3]).1 (by decide)⟩

/-! ## The chunks of a shared vector -/

theorem elementAt_append (x : GaloisRingElement .monomial) (rest : List (BitVec 16)) :
    elementAt (x.coefs ++ rest) 0 = x := rfl

theorem elementAt_append_succ (x : GaloisRingElement .monomial) (rest : List (BitVec 16)) (c : Nat) :
    elementAt (x.coefs ++ rest) (4 * (c + 1)) = elementAt rest (4 * c) := rfl

/-- The four values of a vector from an index on, as they are shared. -/
def elementOf (v : List (BitVec 8)) (start : Nat) : GaloisRingElement .a :=
  ⟨(v.getD start 0).signExtend 16, (v.getD (start + 1) 0).signExtend 16, (v.getD (start + 2) 0).signExtend 16,
    (v.getD (start + 3) 0).signExtend 16⟩

theorem exists_chunk {v : List (BitVec 8)} {n : Nat} (hv : v.length = 4 * (n + 1)) :
    ∃ v0 v1 v2 v3 rest, v = v0 :: v1 :: v2 :: v3 :: rest ∧ rest.length = 4 * n := by
  obtain ⟨v0, v, rfl⟩ := List.exists_cons_of_length_pos (l := v) (by omega)
  obtain ⟨v1, v, rfl⟩ := List.exists_cons_of_length_pos (l := v) (by simp only [List.length_cons] at hv; omega)
  obtain ⟨v2, v, rfl⟩ := List.exists_cons_of_length_pos (l := v) (by simp only [List.length_cons] at hv; omega)
  obtain ⟨v3, v, rfl⟩ := List.exists_cons_of_length_pos (l := v) (by simp only [List.length_cons] at hv; omega)
  refine ⟨v0, v1, v2, v3, v, rfl, ?_⟩
  simp only [List.length_cons] at hv
  omega

section Loop

variable {m : Nat} {enc : GaloisRingElement .monomial → U16Stream → (Fin m → ShamirGaloisRingShare) × U16Stream}
  {loop : List (BitVec 8) → U16Stream → Fin m → List (BitVec 16)}

/-- A loop that shares the chunks of a vector one after the other shares each of them. -/
theorem elementAt_loop
    (hloop : ∀ v0 v1 v2 v3 rest rng j, loop (v0 :: v1 :: v2 :: v3 :: rest) rng j =
      ((enc (elementOf [v0, v1, v2, v3] 0).toMonomial rng).1 j).y.coefs ++
        loop rest (enc (elementOf [v0, v1, v2, v3] 0).toMonomial rng).2 j)
    (n : Nat) {v : List (BitVec 8)} (hv : v.length = 4 * n) (rng : U16Stream) {c : Nat} (hc : c < n) :
    ∃ rng', ∀ j, elementAt (loop v rng j) (4 * c) = ((enc (elementOf v (4 * c)).toMonomial rng').1 j).y := by
  induction n generalizing v rng c with
  | zero => omega
  | succ n ih =>
    obtain ⟨v0, v1, v2, v3, rest, rfl, hrest⟩ := exists_chunk hv
    cases c with
    | zero =>
      refine ⟨rng, fun j => ?_⟩
      rw [hloop]
      exact elementAt_append _ _
    | succ c =>
      obtain ⟨rng', h⟩ := ih hrest (enc (elementOf [v0, v1, v2, v3] 0).toMonomial rng).2 (Nat.lt_of_succ_lt_succ hc)
      refine ⟨rng', fun j => ?_⟩
      rw [hloop, elementAt_append_succ, h j]
      rfl

end Loop

theorem elementAt_secretShare5Loop {n : Nat} {v : List (BitVec 8)} (hv : v.length = 4 * n) (rng : U16Stream) {c : Nat}
    (hc : c < n) : ∃ rng', ∀ j, elementAt (secretShare5Loop v rng j) (4 * c) =
      ((encode5Mat (elementOf v (4 * c)).toMonomial rng').1 j).y :=
  elementAt_loop (fun _ _ _ _ _ _ _ => rfl) n hv rng hc

theorem elementAt_secretShareLoop {n : Nat} {v : List (BitVec 8)} (hv : v.length = 4 * n) (rng : U16Stream) {c : Nat}
    (hc : c < n) : ∃ rng', ∀ j, elementAt (secretShareLoop v rng j) (4 * c) =
      ((encode3Mat (elementOf v (4 * c)).toMonomial rng').1 j).y :=
  elementAt_loop (fun _ _ _ _ _ _ _ => rfl) n hv rng hc

/-! ## Five parties -/

/-- The matrix `S⁻¹` undoes the matrix `S`. -/
theorem toBasisA_toMonomial (x : GaloisRingElement .a) : x.toMonomial.toBasisA = x := by
  have hmod := u16_modulus
  ext1
  · rfl
  · show x.c1 + x.c0 * 58082 + x.c0 * 7454 = x.c1
    linear_combination x.c0 * hmod
  · show x.c2 + x.c0 * 60579 + x.c1 * 25194 + x.c0 * 35057 + (x.c1 + x.c0 * 58082) * 40342 = x.c2
    linear_combination (x.c0 * 35755 + x.c1) * hmod
  · show x.c3 + x.c0 * 17325 + x.c1 * 51956 + x.c2 * 57011 + x.c0 * 37176 + (x.c1 + x.c0 * 58082) * 61738 +
      (x.c2 + x.c0 * 60579 + x.c1 * 25194) * 8525 = x.c3
    linear_combination (x.c0 * 62597 + x.c1 * 3279 + x.c2) * hmod

theorem toI8_signExtend (index : Nat) (b : BitVec 8) : toI8 index (b.signExtend 16) = .ok b := by
  have hint : (b.signExtend 16).toInt = b.toInt := BitVec.toInt_signExtend_of_le (by decide)
  have hlow := BitVec.le_toInt b
  have hhigh := BitVec.toInt_lt (x := b)
  unfold toI8
  rw [hint, if_pos ⟨hlow, hhigh⟩]
  refine congrArg _ ?_
  ext i hi
  simp [BitVec.getLsbD_signExtend, hi]
  omega

/-- The coefficients at zero of five parties. -/
noncomputable def fiveAtZero (j : Fin 5) : GaloisRingElement .monomial :=
  UnitInterpolation.atZero (ids 5) exceptional (j + 1)

theorem deg4LagrangePolysAtZero_eq : deg4LagrangePolysAtZero = .ok (List.ofFn fiveAtZero) := by
  unfold deg4LagrangePolysAtZero
  rw [degKLagrangePolysAtZero_eq (by decide) (by decide)]
  rfl

/-- Five shares of degree at most four give back the secret. -/
theorem sum_fiveAtZero {d : Nat} (hd : d < 5) {s : GaloisRingElement .monomial} {x : Fin 5 → ShamirGaloisRingShare}
    (hx : SharesOfDegree d s x) : ∑ j, (x j).y * fiveAtZero j = s := by
  obtain ⟨f, hf, rfl, hfx⟩ := hx
  have hdegree : f.degree < (ids 5).card := by
    rw [card_ids]
    refine hf.trans_lt ?_
    exact_mod_cast hd
  rw [← UnitInterpolation.sum_eval_mul_atZero (unitDifferences (ids_lt (by decide))) hdegree,
    sum_ids fun i => f.eval (exceptional i) * UnitInterpolation.atZero (ids 5) exceptional i]
  exact Finset.sum_congr rfl fun j _ => by rw [hfx.y_eq j]; rfl

theorem foldl_zip_ofFn (shares : Fin 5 → IrisSecretSharedVector) (coefficients : Fin 5 → GaloisRingElement .monomial)
    (g : IrisSecretSharedVector → GaloisRingElement .monomial) :
    ((List.ofFn shares).zip (List.ofFn coefficients)).foldl (fun element p => element + g p.1 * p.2) 0 =
      ∑ j, g (shares j) * coefficients j := by
  simp only [List.ofFn_succ, List.ofFn_zero, List.zip_cons_cons, List.zip_nil_right, List.foldl_cons, List.foldl_nil,
    Fin.sum_univ_five, zero_add]
  rfl

/-- A round of the reconstruction gives back the values of its chunk. -/
theorem reconstructChunk_eq {shares : Fin 5 → IrisSecretSharedVector} {v : List (BitVec 8)} {start : Nat} {d : Nat}
    (hd : d < 5) {x : Fin 5 → ShamirGaloisRingShare} (hx : SharesOfDegree d (elementOf v start).toMonomial x)
    (hshares : ∀ j, elementAt (shares j).data start = (x j).y) :
    reconstructChunk shares (List.ofFn fiveAtZero) start =
      .ok [v.getD start 0, v.getD (start + 1) 0, v.getD (start + 2) 0, v.getD (start + 3) 0] := by
  unfold reconstructChunk
  rw [foldl_zip_ofFn shares fiveAtZero fun share => elementAt share.data start]
  simp only [hshares, sum_fiveAtZero hd hx, toBasisA_toMonomial]
  have hcoefs : (elementOf v start).coefs = [(v.getD start 0).signExtend 16, (v.getD (start + 1) 0).signExtend 16,
    (v.getD (start + 2) 0).signExtend 16, (v.getD (start + 3) 0).signExtend 16] := rfl
  rw [hcoefs]
  simp only [List.zipIdx_cons, List.zipIdx_nil, List.mapM_cons, List.mapM_nil, toI8_signExtend]
  rfl

theorem flatten_getD {v : List (BitVec 8)} {n : Nat} (hv : v.length = 4 * n) :
    ((List.range n).map fun c =>
      [v.getD (c * 4) 0, v.getD (c * 4 + 1) 0, v.getD (c * 4 + 2) 0, v.getD (c * 4 + 3) 0]).flatten = v := by
  induction n generalizing v with
  | zero =>
    obtain rfl := List.length_eq_zero_iff.mp hv
    rfl
  | succ n ih =>
    obtain ⟨v0, v1, v2, v3, rest, rfl, hrest⟩ := exists_chunk hv
    rw [List.range_succ_eq_map, List.map_cons, List.map_map, List.flatten_cons]
    refine congrArg _ (Eq.trans (congrArg List.flatten (List.map_congr_left fun c _ => ?_)) (ih hrest))
    have hc : (c + 1) * 4 = c * 4 + 4 := by omega
    simp only [Function.comp_apply, Nat.succ_eq_add_one, hc]
    rfl

theorem encode5Mat_mem : encode5Mat ∈ [encode5, encode5Mat] := List.mem_cons_of_mem _ List.mem_cons_self

theorem length_fiveShares (v : IrisVector) (rng : U16Stream) (j : Fin 5) :
    (secretShare5Loop v.data rng j).length = irisVectorSize :=
  (length_secretShare5Loop 128 v.size rng j).trans v.size

/-- The shares of a vector. -/
def fiveShares (v : IrisVector) (rng : U16Stream) (j : Fin 5) : IrisSecretSharedVector :=
  ⟨secretShare5Loop v.data rng j, length_fiveShares v rng j⟩

/-- **Five parties.** For every vector and all randomness the five shares are the same after their texts, all five of
them give back the vector, and any three of them give back the ring element of every chunk. -/
theorem five_party_embeddings_reconstruct (engine : Base64.Engine) (hengine : engine.Lawful Base64.standard)
    (v : IrisVector) (rng : U16Stream) :
    ∃ shares, v.secretShare5Parties rng = .ok shares ∧
      (∀ j, IrisSecretSharedVector.fromBase64 engine ((shares j).toBase64 engine) = .ok (shares j)) ∧
      reconstruct5Parties shares = .ok v.data ∧
      ∀ (k : Fin 3 ↪ Fin 5) (c : Nat), c < irisVectorSize / 4 →
        reconstructSubset (List.ofFn fun i => ⟨k i + 1, elementAt (shares (k i)).data (4 * c)⟩) =
          .ok (elementOf v.data (4 * c)).toMonomial := by
  have hshared : ∀ c < irisVectorSize / 4, ∃ rng', ∀ j, elementAt (fiveShares v rng j).data (4 * c) =
      ((encode5Mat (elementOf v.data (4 * c)).toMonomial rng').1 j).y :=
    fun c hc => elementAt_secretShare5Loop (n := 128) v.size rng hc
  refine ⟨fiveShares v rng, rfl, fun j => (IrisSecretSharedVector.fromBase64_eq_ok hengine).mpr rfl, ?_,
    fun k c hc => ?_⟩
  · unfold reconstruct5Parties
    rw [deg4LagrangePolysAtZero_eq, Outcome.ok_bind]
    have hchunks : (List.range (irisVectorSize / 4)).mapM (fun c => reconstructChunk (fiveShares v rng)
        (List.ofFn fiveAtZero) (c * 4)) = .ok ((List.range (irisVectorSize / 4)).map fun c =>
          [v.data.getD (c * 4) 0, v.data.getD (c * 4 + 1) 0, v.data.getD (c * 4 + 2) 0,
            v.data.getD (c * 4 + 3) 0]) := by
      refine Outcome.mapM_eq_ok fun c hc => ?_
      obtain ⟨rng', h⟩ := hshared c (List.mem_range.mp hc)
      rw [Nat.mul_comm c 4]
      exact reconstructChunk_eq (d := 2) (by decide) (sharesOfDegree_encode5 encode5Mat_mem _ rng') h
    rw [hchunks, Outcome.ok_bind]
    exact congrArg _ (flatten_getD v.size)
  · obtain ⟨rng', h⟩ := hshared c hc
    have hx := sharesOfDegree_encode5 encode5Mat_mem (elementOf v.data (4 * c)).toMonomial rng'
    have hshare : ∀ j : Fin 5, ShamirGaloisRingShare.mk (j + 1) (elementAt (fiveShares v rng j).data (4 * c)) =
        (encode5Mat (elementOf v.data (4 * c)).toMonomial rng').1 j := by
      intro j
      rw [h j]
      exact share_ext (encode5Mat_id _ rng' j).symm rfl
    simp only [hshare]
    exact hx.subset_reconstructs (by decide) (by decide) k

theorem five_party_embeddings_reconstruct_counting :
    ∃ shares, countingVector.secretShare5Parties (fun i => BitVec.ofNat 16 (7 * i + 1)) = .ok shares ∧
      IrisSecretSharedVector.fromBase64 standardEngine ((shares 4).toBase64 standardEngine) = .ok (shares 4) ∧
      reconstruct5Parties shares = .ok countingVector.data := by
  obtain ⟨shares, hshared, htext, hfive, -⟩ := five_party_embeddings_reconstruct standardEngine
    (Base64.Alphabet.engine_lawful _) countingVector fun i => BitVec.ofNat 16 (7 * i + 1)
  exact ⟨shares, hshared, htext 4, hfive⟩

/-! ## Two of three parties -/

theorem deg1LagrangePolyAtV_eq {i j w : Nat} (hi : i < 15) (hj : j < 15) (hw : w < 15) (hij : i ≠ j) :
    deg1LagrangePolyAtV i j w = .ok ((exceptional (w + 1) - exceptional (j + 1)) *
      Ring.inverse (exceptional (i + 1) - exceptional (j + 1))) := by
  have hinv := inverse_eq (hasOdd_exceptional_sub (i := i + 1) (j := j + 1) (by omega) (by omega) (by omega))
  unfold deg1LagrangePolyAtV
  rw [if_neg (not_not.mpr hi), if_neg (not_not.mpr hj), if_neg (not_not.mpr hw)]
  simp only [point_eq (i := i + 1) (by omega), point_eq (i := j + 1) (by omega), point_eq (i := w + 1) (by omega),
    Outcome.ok_bind, hinv]
  rfl

theorem deg1LagrangePolysAtZero_eq {i j : Fin 3} (hij : i ≠ j) :
    deg1LagrangePolysAtZero i j = .ok ((exceptional 0 - exceptional (j + 1)) *
      Ring.inverse (exceptional (i + 1) - exceptional (j + 1))) := by
  have hi := i.isLt
  have hj := j.isLt
  have hne : (i : Nat) ≠ j := fun h => hij (Fin.ext h)
  have hinv := inverse_eq (hasOdd_exceptional_sub (i := i + 1) (j := j + 1) (by omega) (by omega) (by omega))
  have hzero : exceptional 0 = 0 := rfl
  unfold deg1LagrangePolysAtZero
  simp only [point_eq (i := (i : Nat) + 1) (by omega), point_eq (i := (j : Nat) + 1) (by omega), Outcome.ok_bind, hinv,
    one_mul, hzero, zero_sub]
  rfl

/-- A line through two of its points. -/
theorem line_of_two {A : Type} [CommRing A] {a r x y : A} (h : IsUnit (x - y)) (z : A) :
    (a + r * x) * ((z - y) * Ring.inverse (x - y)) + (a + r * y) * ((z - x) * Ring.inverse (y - x)) = a + r * z := by
  have hinv : (x - y) * Ring.inverse (x - y) = 1 := Ring.mul_inverse_cancel _ h
  have hinv' : (y - x) * Ring.inverse (y - x) = 1 := by
    refine Ring.mul_inverse_cancel _ ?_
    rw [← neg_sub]
    exact h.neg
  have hneg : Ring.inverse (y - x) = -Ring.inverse (x - y) := by
    linear_combination (-Ring.inverse (y - x)) * hinv - Ring.inverse (x - y) * hinv'
  rw [hneg]
  linear_combination (a + r * z) * hinv

theorem encode3Mat_line (s : GaloisRingElement .monomial) (rng : U16Stream) (j : Fin 3) :
    ((encode3Mat s rng).1 j).y = s + (random rng).1 * exceptional (j + 1) := by
  rw [encode3Mat_eq]
  rfl

theorem isUnit_exceptional_sub {i j : Fin 3} (hij : i ≠ j) : IsUnit (exceptional (i + 1) - exceptional (j + 1)) := by
  have hi := i.isLt
  have hj := j.isLt
  have hne : (i : Nat) ≠ j := fun h => hij (Fin.ext h)
  exact (hasOdd_exceptional_sub (by omega) (by omega) (by omega)).isUnit

/-- The coefficient of a party for the value at a point, when another party takes part. -/
noncomputable def lineCoefficient (i j : Fin 3) (z : GaloisRingElement .monomial) : GaloisRingElement .monomial :=
  (z - exceptional (j + 1)) * Ring.inverse (exceptional (i + 1) - exceptional (j + 1))

theorem toBasisA_add (x y : GaloisRingElement .monomial) : (x + y).toBasisA = x.toBasisA + y.toBasisA := by
  ext1
  · rfl
  · show x.c1 + y.c1 + (x.c0 + y.c0) * 7454 = x.c1 + x.c0 * 7454 + (y.c1 + y.c0 * 7454)
    ring
  · show x.c2 + y.c2 + (x.c0 + y.c0) * 35057 + (x.c1 + y.c1) * 40342 =
      x.c2 + x.c0 * 35057 + x.c1 * 40342 + (y.c2 + y.c0 * 35057 + y.c1 * 40342)
    ring
  · show x.c3 + y.c3 + (x.c0 + y.c0) * 37176 + (x.c1 + y.c1) * 61738 + (x.c2 + y.c2) * 8525 =
      x.c3 + x.c0 * 37176 + x.c1 * 61738 + x.c2 * 8525 + (y.c3 + y.c0 * 37176 + y.c1 * 61738 + y.c2 * 8525)
    ring

theorem zipWith_coefs_append {basis : Basis} (x y : GaloisRingElement basis) (xs ys : List (BitVec 16)) :
    List.zipWith (· + ·) (x.coefs ++ xs) (y.coefs ++ ys) = (x + y).coefs ++ List.zipWith (· + ·) xs ys := rfl

/-- Two parties add up to the vector. -/
theorem zipWith_weightedBasisA {i j : Fin 3} (hij : i ≠ j) {n : Nat} {v : List (BitVec 8)} (hv : v.length = 4 * n)
    (rng : U16Stream) :
    List.zipWith (· + ·) (weightedBasisA (lineCoefficient i j 0) (secretShareLoop v rng i))
      (weightedBasisA (lineCoefficient j i 0) (secretShareLoop v rng j)) = v.map fun x => x.signExtend 16 := by
  induction n generalizing v rng with
  | zero =>
    obtain rfl := List.length_eq_zero_iff.mp hv
    rfl
  | succ n ih =>
    obtain ⟨v0, v1, v2, v3, rest, rfl, hrest⟩ := exists_chunk hv
    have hline := line_of_two (a := (elementOf [v0, v1, v2, v3] 0).toMonomial) (r := (random rng).1)
      (isUnit_exceptional_sub hij) 0
    rw [mul_zero, add_zero, ← encode3Mat_line, ← encode3Mat_line] at hline
    have hsum : (((encode3Mat (elementOf [v0, v1, v2, v3] 0).toMonomial rng).1 i).y * lineCoefficient i j 0).toBasisA +
        (((encode3Mat (elementOf [v0, v1, v2, v3] 0).toMonomial rng).1 j).y * lineCoefficient j i 0).toBasisA =
          elementOf [v0, v1, v2, v3] 0 := by
      rw [← toBasisA_add]
      exact (congrArg toBasisA hline).trans (toBasisA_toMonomial _)
    show List.zipWith (· + ·)
      ((((encode3Mat (elementOf [v0, v1, v2, v3] 0).toMonomial rng).1 i).y * lineCoefficient i j 0).toBasisA.coefs ++
        weightedBasisA (lineCoefficient i j 0) (secretShareLoop rest (rng.drop 4) i))
      ((((encode3Mat (elementOf [v0, v1, v2, v3] 0).toMonomial rng).1 j).y * lineCoefficient j i 0).toBasisA.coefs ++
        weightedBasisA (lineCoefficient j i 0) (secretShareLoop rest (rng.drop 4) j)) = _
    rw [zipWith_coefs_append, ih hrest, hsum]
    rfl

/-- **Two of three parties.** For every vector and all randomness, the shares of any two different parties, with their
coefficients at zero, add up to the vector, and with those at the point of a party to the share of this party. -/
theorem two_of_three_reconstruct (v : IrisVector) (rng : U16Stream) :
    ∃ shares, secretShare v.data rng = .ok shares ∧ ∀ i j : Fin 3, i ≠ j →
      (∃ ci cj, deg1LagrangePolysAtZero i j = .ok ci ∧ deg1LagrangePolysAtZero j i = .ok cj ∧
        List.zipWith (· + ·) (weightedBasisA ci (shares i)) (weightedBasisA cj (shares j)) =
          v.data.map fun x => x.signExtend 16) ∧
      ∀ w : Fin 3, ∃ ci cj, deg1LagrangePolyAtV i j w = .ok ci ∧ deg1LagrangePolyAtV j i w = .ok cj ∧
        ∀ c < irisVectorSize / 4,
          elementAt (shares i) (4 * c) * ci + elementAt (shares j) (4 * c) * cj = elementAt (shares w) (4 * c) := by
  refine ⟨secretShareLoop v.data rng, ?_, fun i j hij => ⟨?_, fun w => ?_⟩⟩
  · unfold secretShare
    rw [v.size]
    rfl
  · refine ⟨lineCoefficient i j 0, lineCoefficient j i 0, deg1LagrangePolysAtZero_eq hij,
      deg1LagrangePolysAtZero_eq hij.symm, zipWith_weightedBasisA hij (n := 128) v.size rng⟩
  · have hlt : ∀ p : Fin 3, (p : Nat) < 15 := fun p => p.isLt.trans (by decide)
    have hne : (i : Nat) ≠ j := fun h => hij (Fin.ext h)
    refine ⟨lineCoefficient i j (exceptional (w + 1)), lineCoefficient j i (exceptional (w + 1)),
      deg1LagrangePolyAtV_eq (hlt i) (hlt j) (hlt w) hne, deg1LagrangePolyAtV_eq (hlt j) (hlt i) (hlt w) hne.symm,
      fun c hc => ?_⟩
    obtain ⟨rng', h⟩ := elementAt_secretShareLoop (n := 128) v.size rng hc
    rw [h i, h j, h w, encode3Mat_line, encode3Mat_line, encode3Mat_line]
    exact line_of_two (isUnit_exceptional_sub hij) _

end AmpcCommon.Galois
