import AmpcCommon.Channel.Striping
import AmpcCommon.Channel.Proofs.LengthProofs
import AmpcCommon.Base.Cuts
import Mathlib.Algebra.BigOperators.Group.Finset.Basic
import Mathlib.Algebra.Order.BigOperators.Group.Finset
import Mathlib.Data.Finset.Card

/-!
# Fragments of a message

A fragment that is encoded decodes to itself (`Fragment.decode_encode`). The fragments of a message cut it at the
balanced cuts, so an assembly that has all of them puts the message together again. What an assembly has is described
by the set of the indices that have arrived (`AssemblyInv`).
-/

namespace AmpcCommon.Channel

open Wire

/-- A message on its way: the value that is sent, its bytes, and the value the receiver parses them to. -/
structure Message where
  value : NetworkValue
  bytes : Bytes
  received : NetworkValue
  toNetwork_eq : value.toNetwork = .ok bytes
  deserialize_eq : NetworkValue.deserialize bytes = .ok received

namespace Fragment

/-- A fragment whose fields are in the range of their types and that the receiver accepts. -/
structure WellFormed (f : Fragment) : Prop where
  sequence : f.sequence < 2 ^ 64
  totalLen : f.totalLen < 2 ^ 64
  count : f.count < 2 ^ 32
  index : f.index < f.count
  nonempty : 0 < f.totalLen

/-- The wire format of a fragment. -/
def wire (f : Fragment) : NetworkValue :=
  .bytes (stripeMagic ++ LittleEndian.encode 8 f.sequence ++ LittleEndian.encode 8 f.totalLen ++
    LittleEndian.encode 4 f.index ++ LittleEndian.encode 4 f.count ++ f.payload)

variable {f : Fragment}

theorem encode_eq (h : f.WellFormed) : encode f.sequence f.totalLen f.index f.count f.payload = .ok f.wire := by
  have hfits : ¬ (2 ^ 64 ≤ f.totalLen ∨ 2 ^ 32 ≤ f.index ∨ 2 ^ 32 ≤ f.count) := by
    have := h.totalLen
    have := h.count
    have := h.index
    omega
  unfold encode
  rw [if_neg hfits]
  rfl

/-- A fragment is carried over a connection as it is. -/
theorem transport_wire (hlen : f.payload.length < 2 ^ 32 - stripeHeaderBytes) :
    StripedChannel.transport f.wire = .ok f.wire := by
  unfold stripeHeaderBytes at hlen
  have hfits : f.wire.FlatSendable := by
    show List.length _ < 2 ^ 32
    simp [stripeMagic]
    omega
  obtain ⟨hbytes, hvalue⟩ := deserialize_serialize_flat hfits
  exact Outcome.bind_eq_ok.mpr ⟨_, hbytes, hvalue⟩

theorem decode_wire (h : f.WellFormed) : decode f.wire = .ok f := by
  have hread : ∀ {k n : Nat} (before after : Bytes) {i : Nat}, n < 256 ^ k → before.length = i →
      readLe k (before ++ (LittleEndian.encode k n ++ after)) i = .ok n := by
    rintro k n before after i hn rfl
    exact readLe_append hn before after
  have hindex : f.index < 2 ^ 32 := h.index.trans h.count
  unfold wire
  generalize hbytes : stripeMagic ++ LittleEndian.encode 8 f.sequence ++ LittleEndian.encode 8 f.totalLen ++
    LittleEndian.encode 4 f.index ++ LittleEndian.encode 4 f.count ++ f.payload = bytes
  have hpayload : bytes.drop stripeHeaderBytes = f.payload := by
    rw [← hbytes]
    exact List.drop_left' (by simp [stripeMagic, stripeHeaderBytes])
  simp only [List.append_assoc] at hbytes
  have hlen : ¬ bytes.length < stripeHeaderBytes := by
    subst hbytes
    simp [stripeMagic, stripeHeaderBytes]
    omega
  have hmagic : bytes.slice 0 stripeMagic.length = .ok stripeMagic := by
    subst hbytes
    rw [Bytes.slice_eq_ok (Nat.zero_le _) (by simp)]
    simp
  have hsequence : readLe 8 bytes 8 = .ok f.sequence := by
    rw [← hbytes]
    exact hread stripeMagic _ (h.sequence.trans_le (by decide)) rfl
  have htotal : readLe 8 bytes 16 = .ok f.totalLen := by
    rw [← hbytes, ← List.append_assoc stripeMagic]
    exact hread _ _ (h.totalLen.trans_le (by decide)) (by simp [stripeMagic])
  have hidx : readLe 4 bytes 24 = .ok f.index := by
    rw [← hbytes, ← List.append_assoc stripeMagic, ← List.append_assoc (stripeMagic ++ _)]
    exact hread _ _ (hindex.trans_le (by decide)) (by simp [stripeMagic])
  have hcount : readLe 4 bytes 28 = .ok f.count := by
    rw [← hbytes, ← List.append_assoc stripeMagic, ← List.append_assoc (stripeMagic ++ _),
      ← List.append_assoc (stripeMagic ++ _ ++ _)]
    exact hread _ _ (h.count.trans_le (by decide)) (by simp [stripeMagic])
  have hcount0 : ¬ f.count = 0 := by
    have := h.index
    omega
  have hindexlt : ¬ f.count ≤ f.index := not_le.mpr h.index
  have htotal0 : ¬ f.totalLen = 0 := h.nonempty.ne'
  unfold decode
  simp only [if_neg hlen, hmagic, hsequence, htotal, hidx, hcount, Outcome.ok_bind, hpayload, if_neg hcount0,
    if_neg hindexlt, if_neg htotal0, ne_eq, not_true_eq_false, if_false]
  rfl

end Fragment

/-! ## The fragments of a message -/

/-- The number of fragments of a message over `n` connections. -/
def stripeCount (n : Nat) (bytes : Bytes) : Nat :=
  min n (max ((bytes.length + minBytesPerStripe - 1) / minBytesPerStripe) 1)

/-- The piece of a message that fragment `i` carries. -/
def stripe (n : Nat) (bytes : Bytes) (i : Nat) : Bytes :=
  Cuts.piece (Cuts.balanced bytes.length (stripeCount n bytes)) bytes i

/-- Fragment `i` of a message. -/
def fragment (n sequence : Nat) (bytes : Bytes) (i : Nat) : Fragment where
  sequence := sequence
  totalLen := bytes.length
  index := i
  count := stripeCount n bytes
  payload := stripe n bytes i

section Cutting

variable {n : Nat} {bytes : Bytes}

theorem stripeCount_pos (hn : 0 < n) : 0 < stripeCount n bytes := by
  unfold stripeCount
  omega

theorem stripeCount_le : stripeCount n bytes ≤ n := min_le_left _ _

theorem stripeCount_lt (hlen : bytes.length < 2 ^ 32 + 5) : stripeCount n bytes < 2 ^ 32 := by
  unfold stripeCount minBytesPerStripe
  omega

theorem cut_le (hn : 0 < n) {i : Nat} (hi : i ≤ stripeCount n bytes) :
    Cuts.balanced bytes.length (stripeCount n bytes) i ≤ bytes.length := by
  have hle := Cuts.balanced_mono bytes.length (stripeCount n bytes) hi
  rwa [Cuts.balanced_last (stripeCount_pos hn)] at hle

/-- The pieces are the message. -/
theorem flatten_stripes (bytes : Bytes) (hn : 0 < n) :
    ((List.range (stripeCount n bytes)).map (stripe n bytes)).flatten = bytes := by
  have hflat := Cuts.flatten_pieces (Cuts.balanced_mono bytes.length (stripeCount n bytes))
    (Cuts.balanced_zero _ _) bytes (stripeCount n bytes)
  rw [Cuts.balanced_last (stripeCount_pos hn), List.take_length] at hflat
  exact hflat

theorem sum_stripes (bytes : Bytes) (hn : 0 < n) :
    ∑ i ∈ Finset.range (stripeCount n bytes), (stripe n bytes i).length = bytes.length := by
  have hlen := congrArg List.length (flatten_stripes bytes hn)
  rw [List.length_flatten, List.map_map] at hlen
  rw [← hlen]
  rfl

/-- Over two or more connections, a fragment fits behind a length field of 32 bits. -/
theorem length_stripe_lt (hn : 2 ≤ n) (hlen : bytes.length < 2 ^ 32 + 5) {i : Nat} (hi : i < stripeCount n bytes) :
    (stripe n bytes i).length < 2 ^ 32 - stripeHeaderBytes := by
  have hpiece : (stripe n bytes i).length ≤ bytes.length / stripeCount n bytes + 1 := by
    unfold stripe
    rw [Cuts.length_piece (cut_le (by omega) hi), Cuts.balanced_succ, Nat.add_assoc, Nat.add_sub_cancel_left]
    refine Nat.add_le_add_left ?_ _
    split_ifs <;> decide
  have hhalf : bytes.length / stripeCount n bytes ≤ 2 ^ 31 + 5 := by
    by_cases hone : stripeCount n bytes = 1
    · -- a message in one piece is short
      rw [hone, Nat.div_one]
      unfold stripeCount minBytesPerStripe at hone
      omega
    · have htwo : 2 ≤ stripeCount n bytes := by omega
      have hle : bytes.length / stripeCount n bytes ≤ bytes.length / 2 := Nat.div_le_div_left htwo (by decide)
      omega
  unfold stripeHeaderBytes
  omega

theorem fragment_wellFormed {sequence : Nat} (hsequence : sequence < 2 ^ 64) (hne : bytes ≠ [])
    (hlen : bytes.length < 2 ^ 32 + 5) {i : Nat} (hi : i < stripeCount n bytes) :
    (fragment n sequence bytes i).WellFormed where
  sequence := hsequence
  totalLen := hlen.trans (by decide)
  count := stripeCount_lt hlen
  index := hi
  nonempty := List.length_pos_iff.mpr hne

/-- What the loop of `send` puts on the connections. -/
theorem stripes_eq (hn : 0 < n) {sequence : Nat} (hsequence : sequence < 2 ^ 64) (hne : bytes ≠ [])
    (hlen : bytes.length < 2 ^ 32 + 5) :
    PeerIo.stripes n sequence (stripeCount n bytes) bytes = .ok ((List.range (stripeCount n bytes)).map fun i =>
      ((sequence % n + i) % n, (fragment n sequence bytes i).wire)) := by
  unfold PeerIo.stripes
  refine Outcome.mapM_eq_ok fun i hi => ?_
  have hi : i < stripeCount n bytes := List.mem_range.mp hi
  -- the end of the piece is the next cut
  have hstop : i * (bytes.length / stripeCount n bytes) + min i (bytes.length % stripeCount n bytes) +
      bytes.length / stripeCount n bytes + (if i < bytes.length % stripeCount n bytes then 1 else 0) =
      Cuts.balanced bytes.length (stripeCount n bytes) (i + 1) :=
    (Cuts.balanced_succ _ _ _).symm
  have hslice : bytes.slice (Cuts.balanced bytes.length (stripeCount n bytes) i)
      (Cuts.balanced bytes.length (stripeCount n bytes) (i + 1)) = .ok (stripe n bytes i) :=
    Bytes.slice_eq_ok (Cuts.balanced_mono _ _ (Nat.le_succ i)) (cut_le hn hi)
  have hencode := Fragment.encode_eq (fragment_wellFormed hsequence hne hlen hi)
  dsimp only
  rw [hstop]
  show (bytes.slice (Cuts.balanced bytes.length (stripeCount n bytes) i) _ >>= _) = _
  rw [hslice, Outcome.ok_bind]
  show (Fragment.encode sequence bytes.length i (stripeCount n bytes) (stripe n bytes i) >>= _) = _
  rw [show Fragment.encode sequence bytes.length i (stripeCount n bytes) (stripe n bytes i) = _ from hencode]
  rfl

end Cutting

/-- Handing over the buffer of a pre-framed value does not change its bytes. -/
theorem intoNetwork_eq_toNetwork (v : NetworkValue) : v.intoNetwork = v.toNetwork := by
  cases v with
  | preFramed frame => rfl
  | _ => rfl

namespace Message

variable (m : Message)

theorem intoNetwork_eq : m.value.intoNetwork = .ok m.bytes :=
  (intoNetwork_eq_toNetwork m.value).trans m.toNetwork_eq

theorem bytes_ne_nil : m.bytes ≠ [] := (deserialize_framed m.deserialize_eq).ne_nil

theorem length_bytes_lt : m.bytes.length < 2 ^ 32 + 5 := (deserialize_framed m.deserialize_eq).length_lt

/-- What a call of `send` puts on which of `n` connections. -/
def fragments (n sequence : Nat) : List (Nat × NetworkValue) :=
  (List.range (stripeCount n m.bytes)).map fun i =>
    ((sequence % n + i) % n, (fragment n sequence m.bytes i).wire)

/-- A call of `send` over more than one connection. -/
theorem send_eq {peer : PeerIo} (hn : 2 ≤ peer.connections) (hsequence : peer.nextSendSequence + 1 < 2 ^ 64) :
    peer.send m.value = ({ peer with nextSendSequence := peer.nextSendSequence + 1 },
      .ok (m.fragments peer.connections peer.nextSendSequence)) := by
  have h0 : ¬ peer.connections = 0 := by omega
  have h1 : ¬ peer.connections = 1 := by omega
  have hstripes := stripes_eq (n := peer.connections) (by omega) (Nat.lt_of_succ_lt hsequence) m.bytes_ne_nil
    m.length_bytes_lt
  unfold PeerIo.send
  rw [if_neg h0, if_neg h1, m.intoNetwork_eq]
  dsimp only
  rw [if_neg (not_le.mpr hsequence)]
  exact congrArg _ hstripes

end Message

/-! ## Assembling -/

theorem Assembly.insert_ok {a : Assembly} {f : Fragment} (htotal : a.totalLen = f.totalLen)
    (hcount : a.chunks.length = f.count) (hslot : a.chunks[f.index]? = some none)
    (hfits : a.receivedLen + f.payload.length ≤ a.totalLen) :
    a.insert f = ({ a with
      chunks := a.chunks.set f.index (some f.payload)
      received := a.received + 1
      receivedLen := a.receivedLen + f.payload.length }, .ok ()) := by
  unfold Assembly.insert
  rw [if_neg (not_not.mpr ⟨htotal, hcount⟩), hslot]
  exact if_neg (not_lt.mpr hfits)

/-- The assembly of a message holds the fragments with the indices in `got`. -/
structure AssemblyInv (n : Nat) (bytes : Bytes) (got : Finset Nat) (a : Assembly) : Prop where
  totalLen : a.totalLen = bytes.length
  chunks : a.chunks =
    (List.range (stripeCount n bytes)).map fun i => if i ∈ got then some (stripe n bytes i) else none
  subset : got ⊆ Finset.range (stripeCount n bytes)
  received : a.received = got.card
  receivedLen : a.receivedLen = ∑ i ∈ got, (stripe n bytes i).length

namespace AssemblyInv

variable {n : Nat} {bytes : Bytes} {got : Finset Nat} {a : Assembly}

theorem new (n sequence : Nat) (bytes : Bytes) (i : Nat) :
    AssemblyInv n bytes ∅ (.new (fragment n sequence bytes i)) where
  totalLen := rfl
  chunks := by simp [Assembly.new, fragment, List.map_const']
  subset := Finset.empty_subset _
  received := rfl
  receivedLen := rfl

theorem length_chunks (h : AssemblyInv n bytes got a) : a.chunks.length = stripeCount n bytes := by
  rw [h.chunks, List.length_map, List.length_range]

/-- A fragment that has not arrived before is taken in. -/
theorem insert (h : AssemblyInv n bytes got a) (sequence : Nat) (hn : 0 < n) {i : Nat} (hi : i < stripeCount n bytes)
    (hnew : i ∉ got) : ∃ a', a.insert (fragment n sequence bytes i) = (a', .ok ()) ∧
      AssemblyInv n bytes (Insert.insert i got) a' := by
  have hsubset : Insert.insert i got ⊆ Finset.range (stripeCount n bytes) :=
    Finset.insert_subset (Finset.mem_range.mpr hi) h.subset
  have hsum : a.receivedLen + (stripe n bytes i).length =
      ∑ j ∈ Insert.insert i got, (stripe n bytes j).length := by
    rw [Finset.sum_insert hnew, h.receivedLen, Nat.add_comm]
  have hle : ∑ j ∈ Insert.insert i got, (stripe n bytes j).length ≤ bytes.length := by
    rw [← sum_stripes bytes hn]
    exact Finset.sum_le_sum_of_subset hsubset
  have hslot : a.chunks[i]? = some none := by
    rw [h.chunks, List.getElem?_map, List.getElem?_range hi]
    simp [hnew]
  have hfits : a.receivedLen + (stripe n bytes i).length ≤ a.totalLen := by
    rw [h.totalLen, hsum]
    exact hle
  refine ⟨_, Assembly.insert_ok h.totalLen h.length_chunks hslot hfits, h.totalLen, ?_, hsubset, ?_, hsum⟩
  · show a.chunks.set i (some (stripe n bytes i)) = _
    refine List.ext_getElem? fun j => ?_
    rw [h.chunks, List.getElem?_set]
    by_cases hj : i = j
    · subst hj
      simp [hi]
    · rw [if_neg hj, List.getElem?_map, List.getElem?_map]
      by_cases hjk : j < stripeCount n bytes
      · rw [List.getElem?_range hjk]
        simp [Finset.mem_insert, Ne.symm hj]
      · rw [List.getElem?_eq_none (by simpa using hjk)]
        rfl
  · show a.received + 1 = _
    rw [Finset.card_insert_of_notMem hnew, h.received]

theorem isComplete_iff (h : AssemblyInv n bytes got a) :
    a.isComplete = true ↔ got = Finset.range (stripeCount n bytes) := by
  unfold Assembly.isComplete
  rw [decide_eq_true_iff, h.received, h.length_chunks]
  constructor
  · intro hcard
    exact Finset.eq_of_subset_of_card_le h.subset (by rw [Finset.card_range, hcard])
  · intro hgot
    rw [hgot, Finset.card_range]

/-- A complete assembly gives the message. -/
theorem assemble (h : AssemblyInv n bytes got a) (hn : 0 < n) (hcomplete : a.isComplete = true) :
    a.assemble = NetworkValue.deserialize bytes := by
  obtain rfl := h.isComplete_iff.mp hcomplete
  have hlen : ¬ a.receivedLen ≠ a.totalLen := by
    rw [h.receivedLen, h.totalLen, sum_stripes bytes hn]
    exact not_not.mpr rfl
  have hchunks : a.chunks = ((List.range (stripeCount n bytes)).map (stripe n bytes)).map some := by
    rw [h.chunks, List.map_map]
    refine List.map_congr_left fun i hi => ?_
    rw [if_pos (Finset.mem_range.mpr (List.mem_range.mp hi))]
    rfl
  have hbytes : (a.chunks.map fun chunk => chunk.getD []).flatten = bytes := by
    rw [hchunks, List.map_map]
    exact (congrArg List.flatten (List.map_id _)).trans (flatten_stripes bytes hn)
  unfold Assembly.assemble
  rw [if_neg (not_not.mpr hcomplete), if_neg hlen, Outcome.mapM_eq_ok (g := fun chunk => chunk.getD []),
    Outcome.ok_bind, hbytes]
  intro chunk hchunk
  rw [hchunks] at hchunk
  obtain ⟨piece, -, rfl⟩ := List.mem_map.mp hchunk
  rfl

end AssemblyInv

end AmpcCommon.Channel
