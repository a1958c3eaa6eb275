import AmpcCommon.Tcp.Handshake

/-!
# The handshake of a connection, proofs

The server learns the identity and the connection that the bytes of the peer announce (`inbound_ok`), and no others:
what it accepts begins with the announcement.
-/

namespace AmpcCommon.Tcp

theorem bind_eq_ok {ε α β : Type} {x : Except ε α} {f : α → Except ε β} {b : β} :
    (x >>= f) = .ok b ↔ ∃ a, x = .ok a ∧ f a = .ok b := by
  cases x with
  | error e =>
    constructor
    · intro h
      cases h
    · rintro ⟨a, ha, -⟩
      cases ha
  | ok a =>
    constructor
    · intro h
      exact ⟨a, rfl, h⟩
    · rintro ⟨a', ha', h⟩
      cases ha'
      exact h

theorem mapError_eq_ok {ε ε' α : Type} {f : ε → ε'} {x : Except ε α} {a : α} :
    x.mapError f = .ok a ↔ x = .ok a := by
  cases x with
  | error e =>
    constructor
    · intro h
      cases h
    · intro h
      cases h
  | ok a' =>
    constructor
    · intro h
      cases h
      rfl
    · intro h
      cases h
      rfl

theorem readExact_eq_ok {n : Nat} {stream stream' : Stream} {bytes : Bytes} :
    stream.readExact n = .ok (bytes, stream') ↔
      bytes.length = n ∧ stream.input = bytes ++ stream'.input ∧
        stream' = { stream with input := stream'.input } := by
  unfold Stream.readExact
  constructor
  · intro h
    split_ifs at h with hlen
    cases h
    exact ⟨List.length_take_of_le (not_lt.mp hlen), (List.take_append_drop n _).symm, rfl⟩
  · rintro ⟨hlen, hinput, hstream⟩
    rw [hstream, hinput]
    subst hlen
    simp

theorem writeAll_eq_ok {bytes : Bytes} {stream stream' : Stream} (h : stream.writeAll bytes = .ok stream') :
    stream'.input = stream.input ∧ stream'.maybeTlsCertChain = stream.maybeTlsCertChain := by
  unfold Stream.writeAll at h
  split at h
  next => cases h; exact ⟨rfl, rfl⟩
  next => cases h

@[simp] theorem length_toBeBytes (n : BitVec 32) : (toBeBytes n).length = 4 := by
  simp [toBeBytes]

@[simp] theorem fromBeBytes_toBeBytes (n : BitVec 32) : fromBeBytes (toBeBytes n) = n := by
  unfold fromBeBytes toBeBytes
  rw [List.reverse_reverse, LittleEndian.decode_encode_of_lt n.isLt, BitVec.ofNat_toNat, BitVec.setWidth_eq]

theorem toBeBytes_fromBeBytes {bytes : Bytes} (h : bytes.length = 4) : toBeBytes (fromBeBytes bytes) = bytes := by
  have hlen : bytes.reverse.length = 4 := by rw [List.length_reverse, h]
  have hlt : LittleEndian.decode bytes.reverse < 2 ^ 32 := by
    have hdecode := LittleEndian.decode_lt bytes.reverse
    rw [hlen] at hdecode
    exact hdecode
  unfold toBeBytes fromBeBytes
  rw [BitVec.toNat_ofNat, Nat.mod_eq_of_lt hlt, ← hlen, LittleEndian.encode_decode, List.reverse_reverse]

theorem readU32_eq_ok {n : BitVec 32} {stream stream' : Stream} :
    stream.readU32 = .ok (n, stream') ↔
      stream.input = toBeBytes n ++ stream'.input ∧ stream' = { stream with input := stream'.input } := by
  unfold Stream.readU32
  rw [bind_eq_ok]
  constructor
  · rintro ⟨⟨bytes, stream''⟩, hread, h⟩
    cases h
    obtain ⟨hlen, hinput, hstream⟩ := readExact_eq_ok.mp hread
    exact ⟨by rw [toBeBytes_fromBeBytes hlen]; exact hinput, hstream⟩
  · rintro ⟨hinput, hstream⟩
    refine ⟨(toBeBytes n, stream'), readExact_eq_ok.mpr ⟨length_toBeBytes n, hinput, hstream⟩, ?_⟩
    show Except.ok (fromBeBytes (toBeBytes n), stream') = _
    rw [fromBeBytes_toBeBytes]

theorem fromUtf8_eq_some {bytes : Bytes} {s : String} : fromUtf8 bytes = some s ↔ bytes = utf8Bytes s := by
  unfold fromUtf8 String.fromUTF8? utf8Bytes
  constructor
  · intro h
    split_ifs at h with hvalid
    cases h
    rfl
  · rintro rfl
    have hvalid : (⟨s.toByteArray.data.toList.toArray⟩ : ByteArray).IsValidUTF8 := s.isValidUTF8
    rw [dif_pos hvalid]
    rfl

theorem inbound_eq_ok {stream stream' : Stream} {peerId : Identity} {connectionId : ConnectionId}
    (h : inbound stream = .ok ((peerId, connectionId), stream')) :
    stream.input = announcement peerId connectionId ++ stream'.input ∧
      stream'.maybeTlsCertChain = stream.maybeTlsCertChain := by
  unfold inbound at h
  obtain ⟨⟨c, s₁⟩, hread, h⟩ := bind_eq_ok.mp h
  obtain ⟨s₂, hwrite, h⟩ := bind_eq_ok.mp h
  obtain ⟨⟨len, s₃⟩, hread', h⟩ := bind_eq_ok.mp h
  dsimp only at h
  by_cases hlong : len.toNat > maxPeerIdLength
  · rw [if_pos hlong] at h
    cases h
  · rw [if_neg hlong] at h
    obtain ⟨⟨bytes, s₄⟩, hbytes, h⟩ := bind_eq_ok.mp h
    dsimp only at h
    cases hutf8 : fromUtf8 bytes with
    | none =>
      rw [hutf8] at h
      cases h
    | some s =>
      rw [hutf8] at h
      cases h
      obtain ⟨hinput₁, hs₁⟩ := readU32_eq_ok.mp (mapError_eq_ok.mp hread)
      obtain ⟨hinput₂, hcert₂⟩ := writeAll_eq_ok (mapError_eq_ok.mp hwrite)
      obtain ⟨hinput₃, hs₃⟩ := readU32_eq_ok.mp (mapError_eq_ok.mp hread')
      obtain ⟨hlen, hinput₄, hs₄⟩ := readExact_eq_ok.mp (mapError_eq_ok.mp hbytes)
      obtain rfl := fromUtf8_eq_some.mp hutf8
      constructor
      · rw [hinput₁, ← hinput₂, hinput₃, hinput₄, announcement, hlen, BitVec.ofNat_toNat, BitVec.setWidth_eq,
          List.append_assoc, List.append_assoc]
      · have hcert₁ : s₁.maybeTlsCertChain = stream.maybeTlsCertChain := by rw [hs₁]
        have hcert₃ : s₃.maybeTlsCertChain = s₂.maybeTlsCertChain := by rw [hs₃]
        have hcert₄ : stream'.maybeTlsCertChain = s₃.maybeTlsCertChain := by rw [hs₄]
        exact hcert₄.trans (hcert₃.trans (hcert₂.trans hcert₁))

/-- An announcement with an id that is not too long is accepted, if it can be echoed. -/
theorem inbound_announcement {stream : Stream} {peerId : Identity} {connectionId : ConnectionId} {rest : Bytes}
    {writes : List Bool} (hinput : stream.input = announcement peerId connectionId ++ rest)
    (hlen : (utf8Bytes peerId).length ≤ maxPeerIdLength) (hwrites : stream.writes = true :: writes) :
    inbound stream = .ok ((peerId, connectionId),
      { stream with input := rest, writes := writes, output := stream.output ++ toBeBytes connectionId }) := by
  have hlt : (utf8Bytes peerId).length < 2 ^ 32 := hlen.trans_lt (by decide)
  have hlen' : (BitVec.ofNat 32 (utf8Bytes peerId).length).toNat = (utf8Bytes peerId).length := by
    rw [BitVec.toNat_ofNat, Nat.mod_eq_of_lt hlt]
  let s₁ : Stream := { stream with
    input := toBeBytes (BitVec.ofNat 32 (utf8Bytes peerId).length) ++ (utf8Bytes peerId ++ rest) }
  let s₂ : Stream := { s₁ with writes := writes, output := stream.output ++ toBeBytes connectionId }
  have hread : stream.readU32 = .ok (connectionId, s₁) := by
    refine readU32_eq_ok.mpr ⟨?_, rfl⟩
    rw [hinput, announcement, List.append_assoc, List.append_assoc]
  have hwrite : s₁.writeAll (toBeBytes connectionId) = .ok s₂ := by
    unfold Stream.writeAll
    dsimp only [s₁]
    rw [hwrites]
  have hread' : s₂.readU32 =
      .ok (BitVec.ofNat 32 (utf8Bytes peerId).length, { s₂ with input := utf8Bytes peerId ++ rest }) :=
    readU32_eq_ok.mpr ⟨rfl, rfl⟩
  have hbytes : Stream.readExact (utf8Bytes peerId).length { s₂ with input := utf8Bytes peerId ++ rest } =
      .ok (utf8Bytes peerId, { s₂ with input := rest }) := readExact_eq_ok.mpr ⟨rfl, rfl, rfl⟩
  unfold inbound
  refine bind_eq_ok.mpr ⟨_, mapError_eq_ok.mpr hread, bind_eq_ok.mpr ⟨_, mapError_eq_ok.mpr hwrite,
    bind_eq_ok.mpr ⟨_, mapError_eq_ok.mpr hread', ?_⟩⟩⟩
  dsimp only
  rw [hlen', if_neg (not_lt.mpr hlen)]
  refine bind_eq_ok.mpr ⟨_, mapError_eq_ok.mpr hbytes, ?_⟩
  dsimp only
  rw [fromUtf8_eq_some.mpr rfl]
  rfl

end AmpcCommon.Tcp
