import AmpcCommon.Keys.Rotation
import AmpcCommon.Base.Counts

/-!
# Rotation: which shares a node can read

The keys that have been uploaded are known by their number. A share belongs to the version whose public key it was
sealed for, and a node has the versions that were current, and previous, when it downloaded them; it opens a share when
one of its versions is that of the share. The laws of the codec, of the sealed boxes and of the services are hypotheses.
-/

namespace AmpcCommon.Keys

/-! ## Texts -/

theorem utf8EncodeChar_ascii : ∀ n < 128, String.utf8EncodeChar (Char.ofNat n) = [UInt8.ofNat n] := by decide

theorem toNat_standard_lt : ∀ v < 64, (Base64.standardSymbol v).toNat < 128 := by decide

/-- A symbol is neither a space nor the first one of a JSON object. -/
theorem standardSymbol_plain : ∀ v < 64, isWhitespace (Char.ofNat (Base64.standardSymbol v).toNat) = false ∧
    Char.ofNat (Base64.standardSymbol v).toNat ≠ Char.ofNat 123 := by decide

theorem asBytes_ascii {bytes : Bytes} (h : ∀ b ∈ bytes, b.toNat < 128) :
    Text.asBytes (bytes.map fun b => Char.ofNat b.toNat) = bytes := by
  induction bytes with
  | nil => rfl
  | cons b bytes ih =>
    rw [List.forall_mem_cons] at h
    show String.utf8EncodeChar (Char.ofNat b.toNat) ++ Text.asBytes (bytes.map fun b => Char.ofNat b.toNat) = _
    rw [utf8EncodeChar_ascii _ h.1, ih h.2, UInt8.ofNat_toNat]
    rfl

section Codec

variable {engine : Base64.Engine} (hengine : engine.Lawful Base64.standard)

include hengine

theorem decodeBase64_encodeBase64 (bytes : Bytes) : decodeBase64 engine (encodeBase64 engine bytes) = .ok bytes := by
  have hascii : ∀ b ∈ engine.encode bytes, b.toNat < 128 := by
    intro b hb
    rcases hengine.mem_encode bytes b hb with rfl | ⟨v, hv, rfl⟩
    · decide
    · exact toNat_standard_lt v hv
  unfold decodeBase64 encodeBase64
  rw [asBytes_ascii hascii, hengine.decode_encode]

/-- A text in base64 does not look like a JSON object. -/
theorem startsWithBrace_encodeBase64 (bytes : Bytes) : startsWithBrace (encodeBase64 engine bytes) = false := by
  have hmem := hengine.mem_encode bytes
  unfold encodeBase64 startsWithBrace
  cases hencode : engine.encode bytes with
  | nil => rfl
  | cons c rest =>
    have hplain : isWhitespace (Char.ofNat c.toNat) = false ∧ Char.ofNat c.toNat ≠ Char.ofNat 123 := by
      rcases hmem c (by rw [hencode]; exact List.mem_cons_self) with rfl | ⟨v, hv, rfl⟩
      · decide
      · exact standardSymbol_plain v hv
    rw [List.map_cons, List.dropWhile_cons_of_neg (by rw [hplain.1]; exact Bool.false_ne_true)]
    show (some (Char.ofNat c.toNat) == some (Char.ofNat 123)) = false
    rw [beq_eq_false_iff_ne]
    exact fun h => hplain.2 (Option.some.inj h)

end Codec

/-! ## Key pairs -/

/-- What the library says of its sealed boxes: a box is opened with the private key of the public key that it was sealed
for. -/
structure SealedBox.Lawful (box : SealedBox) : Prop where
  length_publicKey : ∀ sk pk, box.publicKey sk = .ok pk → pk.length = box.publicKeyLength
  length_encrypt : ∀ sk pk m r, box.publicKey sk = .ok pk → box.overheadLength ≤ (box.encrypt m pk r).length
  decrypt_encrypt : ∀ sk pk m r, box.publicKey sk = .ok pk → box.decrypt (box.encrypt m pk r) sk = .ok m

/-- What the services document. A label is attached to the version that was put last, or to the one before; a request
that fails has been applied, or never is. -/
structure Storage.Documented (storage : Storage) : Prop where
  versions_initial : storage.versions storage.initial = []
  object_initial : storage.object storage.initial = none
  putSecretValue : ∀ text c state, storage.object (storage.putSecretValue text c state).2 = storage.object state ∧
    (storage.versions (storage.putSecretValue text c state).2 = storage.versions state ++ [text] ∨
      storage.versions (storage.putSecretValue text c state).2 = storage.versions state ∧
        ∃ e, (storage.putSecretValue text c state).1 = .error e)
  putObject : ∀ text c state, storage.versions (storage.putObject text c state).2 = storage.versions state ∧
    (storage.object (storage.putObject text c state).2 = some text ∨
      storage.object (storage.putObject text c state).2 = storage.object state)
  current : ∀ c state text, storage.getSecretValue .current c state = .ok (some text) →
    (storage.versions state).getLast? = some text
  previous : ∀ c state text, storage.getSecretValue .previous c state = .ok (some text) →
    (storage.versions state).dropLast.getLast? = some text
  getObject : ∀ c state text, storage.getObject c state = .ok text → storage.object state = some text

variable {engine : Base64.Engine} {box : SealedBox} {privateKeyField : Text → Option Text} {storage : Storage}

theorem fromB64PrivateKeyString_encodeBase64 (hengine : engine.Lawful Base64.standard) {sk pk : Bytes}
    (hlength : sk.length = box.privateKeyLength) (hpk : box.publicKey sk = .ok pk) :
    SharesEncryptionKeyPair.fromB64PrivateKeyString engine box privateKeyField (encodeBase64 engine sk) =
      .ok ⟨sk, pk⟩ := by
  unfold SharesEncryptionKeyPair.fromB64PrivateKeyString
  rw [startsWithBrace_encodeBase64 hengine, if_neg Bool.false_ne_true]
  simp only [bind, Except.bind, decodeBase64_encodeBase64 hengine]
  rw [if_neg (not_not.mpr hlength), hpk]

/-- No other private key opens the box. -/
def OpensOnly (box : SealedBox) (code : Bytes) (pk : Bytes) (ks : List Bytes) : Prop :=
  ∀ sk ∈ ks, box.publicKey sk ≠ .ok pk → box.decrypt code sk = .error .decryptionFailed

/-- What a key pair makes of a share that was sealed for a public key. -/
theorem openSealedBox_encrypt (hbox : box.Lawful) {ks : List Bytes} {sk pk : Bytes} (hmem : sk ∈ ks)
    (hpk : box.publicKey sk = .ok pk) {m pk' : Bytes} {r : Nat} (hpk' : ∃ sk', box.publicKey sk' = .ok pk')
    (honly : OpensOnly box (box.encrypt m pk' r) pk' ks) :
    SharesEncryptionKeyPair.openSealedBox box ⟨sk, pk⟩ (box.encrypt m pk' r) =
      if pk' = pk then .ok m else .error .sealedBoxOpenError := by
  obtain ⟨sk', hsk'⟩ := hpk'
  have hlength := hbox.length_encrypt sk' pk' m r hsk'
  unfold SharesEncryptionKeyPair.openSealedBox
  rw [if_neg (by omega)]
  by_cases h : pk' = pk
  · rw [if_pos h, h, hbox.decrypt_encrypt sk pk m r hpk]
  · have hne : box.publicKey sk ≠ .ok pk' := by
      rw [hpk]
      exact fun heq => h (Except.ok.inj heq).symm
    rw [if_neg h, honly sk hmem hne]

/-! ## The invariant -/

/-- The version of the secret with a number, as a key pair. -/
def IsVersion (box : SealedBox) (ks : List Bytes) (n : Nat) (pair : SharesEncryptionKeyPair) : Prop :=
  ks[n]? = some pair.privateKey ∧ box.publicKey pair.privateKey = .ok pair.publicKey

/-- The public keys of the versions. -/
def IsPublic (box : SealedBox) (ks : List Bytes) (pk : Bytes) : Prop := ∃ sk ∈ ks, box.publicKey sk = .ok pk

/-- The keys of a node are versions of the secret. -/
structure NodeInv (box : SealedBox) (ks : List Bytes) (k : NodeKeys) : Prop where
  current : 0 < k.versions ∧ IsVersion box ks (k.versions - 1) k.keyPairs.currentKeyPair
  previous : ∀ pair, k.keyPairs.previousKeyPair = some pair →
    2 ≤ k.laterVersions ∧ IsVersion box ks (k.laterVersions - 2) pair
  found : k.previousFound = k.keyPairs.previousKeyPair.isSome

/-- What holds of the versions, the public keys and the shares. -/
structure KeyInv (engine : Base64.Engine) (box : SealedBox) (ks : List Bytes) (s : KeySystem storage) : Prop where
  secret : storage.versions s.state = ks.map (encodeBase64 engine)
  length : ∀ sk ∈ ks, sk.length = box.privateKeyLength
  valid : ∀ sk ∈ ks, ∃ pk, box.publicKey sk = .ok pk
  fresh : ks.Pairwise fun a b => box.publicKey a ≠ box.publicKey b
  pending : ∀ text ∈ s.pending, ∃ pk, text = encodeBase64 engine pk ∧ IsPublic box ks pk
  object : ∀ text, storage.object s.state = some text → ∃ pk, text = encodeBase64 engine pk ∧ IsPublic box ks pk
  fetched : ∀ pk ∈ s.fetched, IsPublic box ks pk
  shares : ∀ share ∈ s.shares, IsPublic box ks share.publicKey ∧
    ∃ r, share.text = encodeBase64 engine (box.encrypt share.message share.publicKey r)
  loading : ∀ l, s.loading = some l → 0 < l.versions ∧ ∃ sk, ks[l.versions - 1]? = some sk ∧
    l.current = encodeBase64 engine sk
  keys : ∀ k, s.keys = some k → NodeInv box ks k

theorem KeyInv.length_secret {ks : List Bytes} {s : KeySystem storage} (h : KeyInv engine box ks s) :
    (storage.versions s.state).length = ks.length := by
  rw [h.secret, List.length_map]

theorem IsPublic.append {ks : List Bytes} {pk : Bytes} (h : IsPublic box ks pk) (sk : Bytes) :
    IsPublic box (ks ++ [sk]) pk := by
  obtain ⟨k, hk, hpk⟩ := h
  exact ⟨k, List.mem_append_left _ hk, hpk⟩

theorem getElem?_append_of_some {ks : List Bytes} {n : Nat} {k : Bytes} (h : ks[n]? = some k) (sk : Bytes) :
    (ks ++ [sk])[n]? = some k := by
  have hn := (List.getElem?_eq_some_iff.mp h).1
  rw [List.getElem?_append_left hn, h]

theorem NodeInv.append {ks : List Bytes} {k : NodeKeys} (h : NodeInv box ks k) (sk : Bytes) :
    NodeInv box (ks ++ [sk]) k := by
  obtain ⟨⟨hpos, hcurrent, hpk⟩, hprevious, hfound⟩ := h
  refine ⟨⟨hpos, getElem?_append_of_some hcurrent sk, hpk⟩, fun pair hpair => ?_, hfound⟩
  obtain ⟨htwo, hversion, hpk'⟩ := hprevious pair hpair
  exact ⟨htwo, getElem?_append_of_some hversion sk, hpk'⟩

/-- A new version. -/
theorem KeyInv.append {ks : List Bytes} {s : KeySystem storage} (h : KeyInv engine box ks s) {sk pk : Bytes}
    (hlength : sk.length = box.privateKeyLength) (hpk : box.publicKey sk = .ok pk)
    (hfresh : ∀ k ∈ ks, box.publicKey k ≠ box.publicKey sk) {state : storage.State}
    (hversions : storage.versions state = storage.versions s.state ++ [encodeBase64 engine sk])
    (hobject : storage.object state = storage.object s.state) :
    KeyInv engine box (ks ++ [sk]) { s with state := state } := by
  refine ⟨?_, ?_, ?_, ?_, ?_, ?_, ?_, ?_, ?_, ?_⟩
  · rw [List.map_append, ← h.secret]
    exact hversions
  · intro k hk
    rcases List.mem_append.mp hk with hk | hk
    · exact h.length k hk
    · rw [List.mem_singleton.mp hk]
      exact hlength
  · intro k hk
    rcases List.mem_append.mp hk with hk | hk
    · exact h.valid k hk
    · rw [List.mem_singleton.mp hk]
      exact ⟨pk, hpk⟩
  · refine List.pairwise_append.mpr ⟨h.fresh, List.pairwise_singleton _ _, fun k hk k' hk' => ?_⟩
    rw [List.mem_singleton.mp hk']
    exact hfresh k hk
  · intro text htext
    obtain ⟨pk', heq, hpublic⟩ := h.pending text htext
    exact ⟨pk', heq, hpublic.append sk⟩
  · intro text htext
    rw [hobject] at htext
    obtain ⟨pk', heq, hpublic⟩ := h.object text htext
    exact ⟨pk', heq, hpublic.append sk⟩
  · exact fun pk' hpk' => (h.fetched pk' hpk').append sk
  · intro share hshare
    obtain ⟨hpublic, hr⟩ := h.shares share hshare
    exact ⟨hpublic.append sk, hr⟩
  · intro l hl
    obtain ⟨hpos, k, hk, hcurrent⟩ := h.loading l hl
    exact ⟨hpos, k, getElem?_append_of_some hk sk, hcurrent⟩
  · exact fun k hk => (h.keys k hk).append sk

/-! ## The steps -/

variable (engine box) in
/-- A rotation generates a key pair of the library that no version has. -/
def Generates (s : KeySystem storage) : KeyEvent storage → Prop
  | .uploadPrivate sk _ => sk.length = box.privateKeyLength ∧
    ∀ text ∈ storage.versions s.state, ∀ k, decodeBase64 engine text = .ok k → box.publicKey k ≠ box.publicKey sk
  | _ => True

theorem KeyInv.uploadPrivate (hengine : engine.Lawful Base64.standard) (hstorage : storage.Documented)
    {ks : List Bytes} {s t : KeySystem storage} (h : KeyInv engine box ks s) {sk : Bytes} {c : storage.Choice}
    (hgen : Generates engine box s (.uploadPrivate sk c))
    (hstep : KeySystem.step engine box privateKeyField s (.uploadPrivate sk c) = some t) :
    ∃ ks', KeyInv engine box ks' t := by
  obtain ⟨hlength, hnew⟩ := hgen
  have hfresh : ∀ k ∈ ks, box.publicKey k ≠ box.publicKey sk := by
    intro k hk
    refine hnew (encodeBase64 engine k) ?_ k (decodeBase64_encodeBase64 hengine k)
    rw [h.secret]
    exact List.mem_map_of_mem hk
  obtain ⟨hobject, hput⟩ := hstorage.putSecretValue (encodeBase64 engine sk) c s.state
  unfold KeySystem.step at hstep
  simp only at hstep
  cases hpk : box.publicKey sk with
  | error err =>
    rw [hpk] at hstep
    cases hstep
  | ok pk =>
    simp only [hpk] at hstep
    rcases hput with hversions | ⟨hversions, e, hfailed⟩
    · -- the version is there, whatever the answer is
      have happend := h.append hlength hpk hfresh hversions hobject
      refine ⟨ks ++ [sk], ?_⟩
      cases hresponse : (storage.putSecretValue (encodeBase64 engine sk) c s.state).1 with
      | error e =>
        rw [hresponse] at hstep
        cases hstep
        exact happend
      | ok _ =>
        rw [hresponse] at hstep
        cases hstep
        refine { happend with pending := fun text htext => ?_ }
        rcases List.mem_append.mp htext with htext | htext
        · exact happend.pending text htext
        · rw [List.mem_singleton.mp htext]
          exact ⟨pk, rfl, sk, List.mem_append_right _ List.mem_cons_self, hpk⟩
    · rw [hfailed] at hstep
      cases hstep
      refine ⟨ks, { h with secret := hversions.trans h.secret, object := fun text htext => ?_ }⟩
      exact h.object text (hobject ▸ htext)

theorem downloadPrivateKey_eq_ok {response : Except String (Option Text)} {text : Text}
    (h : downloadPrivateKey response = .ok text) : response = .ok (some text) := by
  unfold downloadPrivateKey at h
  split at h
  · cases h
    rfl
  · cases h
  · cases h

theorem KeyInv.loadCurrent (hstorage : storage.Documented) {ks : List Bytes} {s t : KeySystem storage}
    (h : KeyInv engine box ks s) {c : storage.Choice}
    (hstep : KeySystem.step engine box privateKeyField s (.loadCurrent c) = some t) : KeyInv engine box ks t := by
  unfold KeySystem.step at hstep
  simp only at hstep
  cases hdownload : downloadPrivateKey (storage.getSecretValue .current c s.state) with
  | error err =>
    rw [hdownload] at hstep
    cases hstep
    exact { h with loading := fun l hl => by cases hl }
  | ok current =>
    rw [hdownload] at hstep
    cases hstep
    refine { h with loading := fun l hl => ?_ }
    cases hl
    have hlast := hstorage.current c s.state current (downloadPrivateKey_eq_ok hdownload)
    rw [h.secret, List.getLast?_eq_getElem?, List.getElem?_map, Option.map_eq_some_iff] at hlast
    obtain ⟨sk, hsk, rfl⟩ := hlast
    have hlength := h.length_secret
    rw [List.length_map] at hsk
    have hlt := (List.getElem?_eq_some_iff.mp hsk).1
    refine ⟨?_, sk, ?_, rfl⟩
    · show 0 < (storage.versions s.state).length
      omega
    · show ks[(storage.versions s.state).length - 1]? = _
      rw [hlength, hsk]

/-- The version before the last one. -/
theorem getElem?_of_dropLast_getLast? {ks : List Bytes} {text : Text}
    (h : (ks.map (encodeBase64 engine)).dropLast.getLast? = some text) :
    2 ≤ ks.length ∧ ∃ sk, ks[ks.length - 2]? = some sk ∧ text = encodeBase64 engine sk := by
  rw [← List.map_dropLast, List.getLast?_eq_getElem?, List.getElem?_map, Option.map_eq_some_iff] at h
  obtain ⟨sk, hsk, rfl⟩ := h
  have htwo : ks.length - 1 - 1 = ks.length - 2 := rfl
  rw [List.length_map, List.length_dropLast, List.dropLast_eq_take, htwo] at hsk
  have hlt := (List.getElem?_eq_some_iff.mp hsk).1
  rw [List.length_take] at hlt
  rw [List.getElem?_take_of_lt (by omega)] at hsk
  exact ⟨by omega, sk, hsk, rfl⟩

/-- The key pairs of two downloads. -/
theorem fromDownloads_cases (hengine : engine.Lawful Base64.standard) {sk pk : Bytes}
    (hlength : sk.length = box.privateKeyLength) (hpk : box.publicKey sk = .ok pk)
    {previous : Except SharesDecodingError Text} {pairs : SharesEncryptionKeyPairs}
    (h : SharesEncryptionKeyPairs.fromDownloads engine box privateKeyField (.ok (encodeBase64 engine sk)) previous =
      .ok pairs) :
    pairs.currentKeyPair = ⟨sk, pk⟩ ∧ ∀ pair, pairs.previousKeyPair = some pair → ∃ text, previous = .ok text ∧
      SharesEncryptionKeyPair.fromB64PrivateKeyString engine box privateKeyField text = .ok pair := by
  unfold SharesEncryptionKeyPairs.fromDownloads at h
  change SharesEncryptionKeyPairs.fromB64PrivateKeyStrings engine box privateKeyField (encodeBase64 engine sk) _ = _
    at h
  unfold SharesEncryptionKeyPairs.fromB64PrivateKeyStrings at h
  rw [fromB64PrivateKeyString_encodeBase64 hengine hlength hpk] at h
  cases previous with
  | error err =>
    cases h
    exact ⟨rfl, fun pair hpair => by cases hpair⟩
  | ok text =>
    change (if text.isEmpty = true then _ else _) = _ at h
    by_cases hempty : text.isEmpty = true
    · rw [if_pos hempty] at h
      cases h
      exact ⟨rfl, fun pair hpair => by cases hpair⟩
    · rw [if_neg hempty] at h
      cases hprevious : SharesEncryptionKeyPair.fromB64PrivateKeyString engine box privateKeyField text with
      | error err =>
        change (SharesEncryptionKeyPair.fromB64PrivateKeyString engine box privateKeyField text >>= _) = _ at h
        rw [hprevious] at h
        cases h
      | ok pair =>
        change (SharesEncryptionKeyPair.fromB64PrivateKeyString engine box privateKeyField text >>= _) = _ at h
        rw [hprevious] at h
        cases h
        refine ⟨rfl, fun pair' hpair => ⟨text, rfl, ?_⟩⟩
        cases hpair
        exact hprevious

theorem KeyInv.loadPrevious (hengine : engine.Lawful Base64.standard) (hstorage : storage.Documented)
    {ks : List Bytes} {s t : KeySystem storage} (h : KeyInv engine box ks s) {c : storage.Choice}
    (hstep : KeySystem.step engine box privateKeyField s (.loadPrevious c) = some t) : KeyInv engine box ks t := by
  unfold KeySystem.step at hstep
  simp only [Option.bind_eq_bind, Option.bind_eq_some_iff] at hstep
  obtain ⟨l, hl, hstep⟩ := hstep
  obtain ⟨hpos, sk, hsk, hcurrent⟩ := h.loading l hl
  have hmem := List.mem_of_getElem? hsk
  obtain ⟨pk, hpk⟩ := h.valid sk hmem
  rw [hcurrent] at hstep
  cases hpairs : SharesEncryptionKeyPairs.fromDownloads engine box privateKeyField (.ok (encodeBase64 engine sk))
    (downloadPrivateKey (storage.getSecretValue .previous c s.state)) with
  | error err =>
    rw [hpairs] at hstep
    cases hstep
    exact { h with loading := fun l hl => by cases hl }
  | ok pairs =>
    rw [hpairs] at hstep
    cases hstep
    refine { h with loading := fun l hl => (by cases hl), keys := fun k hk => ?_ }
    cases hk
    obtain ⟨hfirst, hsecond⟩ := fromDownloads_cases hengine (h.length sk hmem) hpk hpairs
    refine ⟨⟨hpos, ?_⟩, fun pair hpair => ?_, rfl⟩
    · rw [hfirst]
      exact ⟨hsk, hpk⟩
    · obtain ⟨text, hdownload, hparse⟩ := hsecond pair hpair
      have hlast := hstorage.previous c s.state text (downloadPrivateKey_eq_ok hdownload)
      rw [h.secret] at hlast
      obtain ⟨htwo, sk', hsk', rfl⟩ := getElem?_of_dropLast_getLast? hlast
      have hmem' := List.mem_of_getElem? hsk'
      obtain ⟨pk', hpk'⟩ := h.valid sk' hmem'
      rw [fromB64PrivateKeyString_encodeBase64 hengine (h.length sk' hmem') hpk'] at hparse
      cases hparse
      have hlength := h.length_secret
      refine ⟨?_, ?_, hpk'⟩
      · show 2 ≤ (storage.versions s.state).length
        omega
      · show ks[(storage.versions s.state).length - 2]? = _
        rw [hlength, hsk']

theorem KeyInv.step (hengine : engine.Lawful Base64.standard) (hstorage : storage.Documented) {ks : List Bytes}
    {s t : KeySystem storage} (h : KeyInv engine box ks s) {e : KeyEvent storage} (hgen : Generates engine box s e)
    (hstep : KeySystem.step engine box privateKeyField s e = some t) : ∃ ks', KeyInv engine box ks' t := by
  cases e with
  | uploadPrivate sk c => exact h.uploadPrivate hengine hstorage hgen hstep
  | uploadPublic i c =>
    unfold KeySystem.step at hstep
    simp only [Option.bind_eq_bind, Option.bind_eq_some_iff] at hstep
    obtain ⟨publicKey, hpending, hstep⟩ := hstep
    cases hstep
    obtain ⟨hversions, hput⟩ := hstorage.putObject publicKey c s.state
    refine ⟨ks, { h with
      secret := hversions.trans h.secret
      pending := fun text htext => h.pending text (List.mem_of_mem_eraseIdx htext)
      object := fun text htext => ?_ }⟩
    rcases hput with hput | hput
    · rw [hput] at htext
      cases htext
      exact h.pending publicKey (List.mem_of_getElem? hpending)
    · rw [hput] at htext
      exact h.object text htext
  | fetch c =>
    unfold KeySystem.step at hstep
    simp only at hstep
    cases hget : storage.getObject c s.state with
    | error e =>
      rw [hget] at hstep
      cases hstep
    | ok text =>
      obtain ⟨pk, rfl, hpublic⟩ := h.object text (hstorage.getObject c s.state text hget)
      simp only [hget, decodeBase64_encodeBase64 hengine] at hstep
      cases hstep
      refine ⟨ks, { h with fetched := fun pk' hpk' => ?_ }⟩
      rcases List.mem_append.mp hpk' with hpk' | hpk'
      · exact h.fetched pk' hpk'
      · rw [List.mem_singleton.mp hpk']
        exact hpublic
  | sealShare i message random =>
    unfold KeySystem.step at hstep
    simp only [Option.bind_eq_bind, Option.bind_eq_some_iff] at hstep
    obtain ⟨pk, hpk, hstep⟩ := hstep
    cases hstep
    refine ⟨ks, { h with shares := fun share hshare => ?_ }⟩
    rcases List.mem_append.mp hshare with hshare | hshare
    · exact h.shares share hshare
    · rw [List.mem_singleton.mp hshare]
      exact ⟨h.fetched pk (List.mem_of_getElem? hpk), random, rfl⟩
  | loadCurrent c => exact ⟨ks, h.loadCurrent hstorage hstep⟩
  | loadPrevious c => exact ⟨ks, h.loadPrevious hengine hstorage hstep⟩

theorem KeyInv.init (hstorage : storage.Documented) :
    KeyInv engine box [] (KeySystem.init : KeySystem storage) := by
  refine ⟨hstorage.versions_initial, ?_, ?_, List.Pairwise.nil, ?_, ?_, ?_, ?_, ?_, ?_⟩
  · exact fun sk hsk => by cases hsk
  · exact fun sk hsk => by cases hsk
  · exact fun text htext => by cases htext
  · intro text htext
    have hnone : storage.object (KeySystem.init : KeySystem storage).state = none := hstorage.object_initial
    rw [hnone] at htext
    cases htext
  · exact fun pk hpk => by cases hpk
  · exact fun share hshare => by cases hshare
  · exact fun l hl => by cases hl
  · exact fun k hk => by cases hk

theorem KeyInv.run (hengine : engine.Lawful Base64.standard) (hstorage : storage.Documented)
    {events : List (KeyEvent storage)} {s : KeySystem storage}
    (hgen : Transition.Along (KeySystem.step engine box privateKeyField) (Generates engine box) KeySystem.init events)
    (hrun : Transition.run (KeySystem.step engine box privateKeyField) KeySystem.init events = some s) :
    ∃ ks, KeyInv engine box ks s := by
  refine Transition.run_invariant_along (I := fun s => ∃ ks, KeyInv engine box ks s) ?_ hgen hrun
    ⟨[], KeyInv.init hstorage⟩
  intro s e t hgen hstep hs
  obtain ⟨ks, h⟩ := hs
  exact h.step hengine hstorage hgen hstep

/-! ## The versions of shares and nodes -/

/-- The number of a version is known from its public key. -/
theorem KeyInv.index_unique {ks : List Bytes} {s : KeySystem storage} (h : KeyInv engine box ks s) {a b : Nat}
    {sk sk' pk : Bytes} (ha : ks[a]? = some sk) (hb : ks[b]? = some sk') (hpk : box.publicKey sk = .ok pk)
    (hpk' : box.publicKey sk' = .ok pk) : a = b := by
  obtain ⟨hlt, rfl⟩ := List.getElem?_eq_some_iff.mp ha
  obtain ⟨hlt', rfl⟩ := List.getElem?_eq_some_iff.mp hb
  have hpairwise := List.pairwise_iff_getElem.mp h.fresh
  rcases Nat.lt_trichotomy a b with hab | hab | hab
  · exact absurd (hpk.trans hpk'.symm) (hpairwise a b hlt hlt' hab)
  · exact hab
  · exact absurd (hpk'.trans hpk.symm) (hpairwise b a hlt' hlt hab)

/-- A share of the version `a`, decrypted with the version `b`. -/
theorem KeyInv.openSealedBox {ks : List Bytes} {s : KeySystem storage} (hbox : box.Lawful) (h : KeyInv engine box ks s)
    {a b : Nat} {sk m pk : Bytes} {r : Nat} {pair : SharesEncryptionKeyPair} (ha : ks[a]? = some sk)
    (hpk : box.publicKey sk = .ok pk) (honly : OpensOnly box (box.encrypt m pk r) pk ks)
    (hb : IsVersion box ks b pair) :
    pair.openSealedBox box (box.encrypt m pk r) = if a = b then .ok m else .error .sealedBoxOpenError := by
  obtain ⟨hversion, hpk'⟩ := hb
  rw [openSealedBox_encrypt hbox (List.mem_of_getElem? hversion) hpk' ⟨sk, hpk⟩ honly]
  by_cases hab : a = b
  · subst hab
    rw [ha] at hversion
    cases hversion
    rw [hpk] at hpk'
    cases hpk'
    rw [if_pos rfl, if_pos rfl]
  · have hne : pk ≠ pair.publicKey := by
      intro heq
      rw [← heq] at hpk'
      exact hab (h.index_unique ha hversion hpk hpk')
    rw [if_neg hab, if_neg hne]

end AmpcCommon.Keys
