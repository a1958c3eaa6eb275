import AmpcCommon.Protocol.Proofs.GateProofs

/-!
# The two-way split, proofs

Each of the three pieces of the input is split by one party, which sends the masked sum of its two components
to the next party, while the previous party draws the same mask. The roles differ from piece to piece and from
session to session only by a rotation of the parties, so one lemma about the three roles is enough
(`pieceAt_succeeds`).

The two results are binary sharings whose sum is the secret of the additive input (`IsTwoWay`).
-/

namespace AmpcCommon.Protocol

variable {K : Nat}

/-! ## What a split is -/

/-- The four vectors have the length `n`. -/
def Split.HasLength (n : Nat) (x : Split K) : Prop :=
  x.s1a.length = n ∧ x.s1b.length = n ∧ x.s2a.length = n ∧ x.s2b.length = n

/-- What the party `p` holds of the binary sharings `ys` and `zs`. -/
def splitView (p : Party) (ys zs : List (Rep3 K)) : Split K :=
  ⟨ys.map fun y => y p, ys.map fun y => y (p - 1), zs.map fun z => z p, zs.map fun z => z (p - 1)⟩

/-- The sums of the secrets of two binary sharings. -/
def xorSums (ys zs : List (Rep3 K)) : List (BitVec K) :=
  List.zipWith (fun y z => y.xor + z.xor) ys zs

/-- The results `r` of splitting the vectors `v`. -/
def IsSplit (n : Nat) (v : Party → List (Share K)) (r : Party → Split K) : Prop :=
  (∀ p, (r p).HasLength n) ∧ ∀ xs, Shares v xs → ∃ ys zs, ys.length = n ∧ zs.length = n ∧
    (∀ p, r p = splitView p ys zs) ∧ xorSums ys zs = xs.map Rep3.sum

theorem Shares.rotate {v : Party → List (Share K)} {xs : List (Rep3 K)} (h : Shares v xs) (e : Party) :
    Shares (fun p => v (p - e)) (xs.map fun x p => x (p - e)) := by
  intro p
  show v (p - e) = _
  rw [h, List.map_map]
  refine List.map_congr_left fun x _ => ?_
  show Rep3.view (p - e) x = ⟨x (p - e), x (p - 1 - e)⟩
  rw [sub_right_comm]
  rfl

theorem map_sum_rotate (xs : List (Rep3 K)) (e : Party) :
    (xs.map fun x p => x (p - e)).map Rep3.sum = xs.map Rep3.sum := by
  rw [List.map_map]
  refine List.map_congr_left fun x _ => ?_
  show (Rep3.sum fun p => x (p - e)) = Rep3.sum x
  simp only [sub_eq_add_neg]
  exact Rep3.sum_rotate x (-e)

/-- A split does not depend on which party is the first. -/
theorem IsSplit.rotate {n : Nat} {v : Party → List (Share K)} {r : Party → Split K} (e : Party)
    (h : IsSplit n (fun p => v (p - e)) r) : IsSplit n v fun p => r (p + e) := by
  refine ⟨fun p => h.1 _, fun xs hx => ?_⟩
  obtain ⟨ys, zs, hy, hz, hr, hsum⟩ := h.2 _ (hx.rotate e)
  refine ⟨ys.map fun y p => y (p + e), zs.map fun z p => z (p + e), ?_, ?_, fun p => ?_, ?_⟩
  · rw [List.length_map, hy]
  · rw [List.length_map, hz]
  · show r (p + e) = _
    rw [hr]
    simp only [splitView, List.map_map, Function.comp_def, sub_add_eq_add_sub]
  · rw [map_sum_rotate] at hsum
    rw [← hsum]
    unfold xorSums
    rw [List.zipWith_map]
    simp only [Rep3.xor_rotate]

theorem IsSplit.extend {n m : Nat} {v w : Party → List (Share K)} {r q : Party → Split K} (hv : ∀ p, (v p).length = n)
    (h : IsSplit n v r) (h' : IsSplit m w q) :
    IsSplit (n + m) (fun p => v p ++ w p) fun p => (r p).extend (q p) := by
  refine ⟨fun p => ?_, fun xs hx => ?_⟩
  · obtain ⟨h1, h2, h3, h4⟩ := h.1 p
    obtain ⟨h5, h6, h7, h8⟩ := h'.1 p
    simp only [Split.HasLength, Split.extend, List.length_append]
    omega
  · have hvx : Shares v (xs.take n) := by
      intro p
      have hp : v p ++ w p = _ := hx p
      rw [List.map_take, ← hp, List.take_append_of_le_length (hv p).ge, List.take_of_length_le (hv p).le]
    have hwx : Shares w (xs.drop n) := by
      intro p
      have hp : v p ++ w p = _ := hx p
      rw [List.map_drop, ← hp, ← hv p, List.drop_left]
    obtain ⟨ys, zs, hy, hz, hr, hsum⟩ := h.2 _ hvx
    obtain ⟨ys', zs', hy', hz', hr', hsum'⟩ := h'.2 _ hwx
    refine ⟨ys ++ ys', zs ++ zs', ?_, ?_, fun p => ?_, ?_⟩
    · rw [List.length_append, hy, hy']
    · rw [List.length_append, hz, hz']
    · show (r p).extend (q p) = _
      rw [hr, hr']
      simp only [splitView, Split.extend, List.map_append]
    · unfold xorSums at hsum hsum' ⊢
      rw [List.zipWith_append (hy.trans hz.symm), hsum, hsum', ← List.map_append, List.take_append_drop]

/-! ## One piece -/

section Piece

variable {R : Type} [Rng R] (t : RingTy)

/-- What a party does with a piece, by its distance from the party that shares the piece. -/
def pieceAt (q : Party) (chunk : List (Share t.bits)) : Proc R (Split t.bits) :=
  splitPiece t q.val 0 chunk

/-- The roles of a piece are a rotation of the roles of the first piece. -/
theorem splitPiece_eq_pieceAt (p s c : Party) (chunk : List (Share t.bits)) :
    (splitPiece t (p + s).val c.val chunk : Proc R _) = pieceAt t (p + (s - c)) chunk := by
  have hsame : ∀ p s c : Party, (c.val = (p + s).val) = (0 = (p + (s - c)).val) := by decide
  have hnext : ∀ p s c : Party, ((c.val + 1) % 3 = (p + s).val) = ((0 + 1) % 3 = (p + (s - c)).val) := by
    decide
  unfold pieceAt splitPiece
  simp only [hsame, hnext]

variable {t}

/-- The sums the first role masks. -/
def pieceSums (chunk : List (Share K)) : List (BitVec K) :=
  List.zipWith (· + ·) (chunk.map Share.a) (chunk.map Share.b)

@[simp] theorem length_pieceSums (chunk : List (Share K)) : (pieceSums chunk).length = chunk.length := by
  simp [pieceSums]

theorem pieceSums_view (xs : List (Rep3 K)) :
    pieceSums (xs.map (Rep3.view 0)) = xs.map fun x => x 0 + x 2 := by
  unfold pieceSums
  rw [List.map_map, List.map_map, List.zipWith_map, List.zipWith_self]
  rfl

theorem zeroIter_length {α : Type} (l : List α) : (zeroIter l.length : List (BitVec K)) = l.map fun _ => 0 := by
  rw [List.map_const']
  rfl

/-- Two lists of one length are the two sides of a list of pairs. -/
theorem exists_zip {α β : Type} {xs : List α} {ys : List β} (h : xs.length = ys.length) :
    ∃ zs : List (α × β), xs = zs.map Prod.fst ∧ ys = zs.map Prod.snd :=
  ⟨xs.zip ys, (List.map_fst_zip h.le).symm, (List.map_snd_zip h.ge).symm⟩

/-- The three roles of a piece hold the two binary sharings of the masked sums and of the third component. -/
theorem isSplit_piece {n : Nat} {chunk : Party → List (Share K)} (hlen : ∀ p, (chunk p).length = n)
    {r : List (BitVec K)} (hr : r.length = n) :
    IsSplit n chunk
      ![⟨List.zipWith (· ^^^ ·) (pieceSums (chunk 0)) r, r, zeroIter n, zeroIter n⟩,
        ⟨zeroIter n, List.zipWith (· ^^^ ·) (pieceSums (chunk 0)) r, (chunk 1).map Share.a, zeroIter n⟩,
        ⟨r, zeroIter n, zeroIter n, (chunk 2).map Share.b⟩] := by
  refine ⟨fun p => ?_, fun xs hx => ?_⟩
  · fin_cases p <;> simp [Split.HasLength, zeroIter, hlen, hr]
  · have hxn : xs.length = n := by rw [← hx.length 0, hlen]
    obtain ⟨zs, rfl, rfl⟩ := exists_zip (hxn.trans hr.symm)
    rw [List.length_map] at hxn
    refine ⟨zs.map fun z => ![(z.1 0 + z.1 2) ^^^ z.2, 0, z.2], zs.map fun z => ![0, z.1 1, 0],
      ?_, ?_, fun p => ?_, ?_⟩
    · rw [List.length_map, hxn]
    · rw [List.length_map, hxn]
    · rw [hx 0, hx 1, hx 2, pieceSums_view, ← hxn, zeroIter_length]
      fin_cases p <;>
        simp [splitView, Function.comp_def, Rep3.view, List.zipWith_map, List.zipWith_self]
    · simp only [xorSums, List.zipWith_map, List.zipWith_self, List.map_map]
      refine List.map_congr_left fun z _ => ?_
      show ((z.1 0 + z.1 2) ^^^ z.2 ^^^ 0 ^^^ z.2) + (0 ^^^ z.1 1 ^^^ 0) = z.1 0 + z.1 1 + z.1 2
      have hmask : (z.1 0 + z.1 2) ^^^ z.2 ^^^ 0 ^^^ z.2 = z.1 0 + z.1 2 := by
        simp
      have hthird : (0 ^^^ z.1 1 ^^^ 0 : BitVec K) = z.1 1 := by simp
      rw [hmask, hthird]
      ac_rfl

theorem pieceAt_succeeds {n : Nat} {chunk : Party → List (Share t.bits)} (hlen : ∀ p, (chunk p).length = n) :
    Succeeds (fun q => (pieceAt t q (chunk q) : Proc R _)) (IsSplit n chunk) := by
  refine Succeeds.of_roles fun s0 s1 s2 => ?_
  have h0 : (pieceAt t 0 (chunk 0) : Proc R _) = (Proc.draw (Prf.prev (genMany t n)) >>= fun rPrev =>
      Proc.lift (vecXor (pieceSums (chunk 0)) rPrev) >>= fun masked => Proc.sendRingVecNext t masked >>=
        fun _ => pure ⟨masked, rPrev, zeroIter masked.length, zeroIter masked.length⟩) := by
    show (Proc.draw (Prf.prev (genMany t ((chunk 0).map Share.a).length)) >>= fun rPrev => _) = _
    have hsum : vecAdd ((chunk 0).map Share.a) ((chunk 0).map Share.b) = .ok (pieceSums (chunk 0)) :=
      vecZip_eq_ok (by rw [List.length_map, List.length_map])
    rw [List.length_map, hlen, hsum]
    rfl
  have h1 : (pieceAt t 1 (chunk 1) : Proc R _) = (Proc.receiveRingVec t .prev >>= fun masked =>
      pure ⟨zeroIter masked.length, masked, (chunk 1).map Share.a, zeroIter masked.length⟩) := rfl
  have h2 : (pieceAt t 2 (chunk 2) : Proc R _) = (Proc.draw (Prf.mine (genMany t n)) >>= fun rNext =>
      pure ⟨rNext, zeroIter n, zeroIter n, (chunk 2).map Share.b⟩) := by
    show (Proc.draw (Prf.mine (genMany t ((chunk 2).map Share.b).length)) >>= fun rNext =>
      pure (⟨rNext, zeroIter ((chunk 2).map Share.b).length, zeroIter ((chunk 2).map Share.b).length,
        (chunk 2).map Share.b⟩ : Split t.bits)) = _
    rw [List.length_map, hlen]
  simp only [h0, h1, h2]
  refine SucceedsFrom.draw0 (SucceedsFrom.draw2 ?_)
  have hr : (genMany t n s2).1.length = n := length_genMany t n s2
  have hxor : vecXor (pieceSums (chunk 0)) (genMany t n s2).1 =
      .ok (List.zipWith (· ^^^ ·) (pieceSums (chunk 0)) (genMany t n s2).1) :=
    vecZip_eq_ok (by rw [length_pieceSums, hlen, hr])
  have hmasked : (List.zipWith (· ^^^ ·) (pieceSums (chunk 0)) (genMany t n s2).1).length = n := by
    rw [List.length_zipWith, length_pieceSums, hlen, hr, Nat.min_self]
  simp only [Prf.prev, Prf.mine, hxor, Proc.lift_ok, pure_bind]
  refine SucceedsFrom.pass01 (SucceedsFrom.pure (lockstep_vec s0 s1 _) ?_)
  rw [hmasked]
  exact isSplit_piece hlen hr

/-- A piece, whichever party shares it. -/
theorem splitPiece_succeeds (s c : Party) {n : Nat} {chunk : Party → List (Share t.bits)}
    (hlen : ∀ p, (chunk p).length = n) :
    Succeeds (fun p => (splitPiece t (p + s).val c.val (chunk p) : Proc R _)) (IsSplit n chunk) := by
  simp only [splitPiece_eq_pieceAt]
  have hrot : Succeeds (fun q => (pieceAt t q (chunk (q - (s - c))) : Proc R _)) fun r =>
      IsSplit n chunk fun p => r (p + (s - c)) :=
    (pieceAt_succeeds fun p => hlen _).mono fun r hr => hr.rotate (s - c)
  have hchunk := hrot.rotate (s - c)
  simp only [add_sub_cancel_right] at hchunk
  exact hchunk

end Piece

/-! ## The loop -/

section Loop

variable {R : Type} [Rng R] {t : RingTy}

theorem isSplit_nil : IsSplit 0 (fun _ => []) fun _ => (⟨[], [], [], []⟩ : Split K) := by
  refine ⟨fun p => ⟨rfl, rfl, rfl, rfl⟩, fun xs hx => ⟨[], [], rfl, rfl, fun p => rfl, ?_⟩⟩
  cases List.length_eq_zero_iff.mp (hx.length 0).symm
  rfl

/-- The loop splits what is left of the input, when the pieces are as long as it. -/
theorem splitLoop_succeeds (s : Party) (pieces : List (Party × Nat)) {m n : Nat}
    {done input : Party → List (Share t.bits)} {acc : Party → Split t.bits} (hdone : ∀ p, (done p).length = m)
    (hinput : ∀ p, (input p).length = n) (htotal : (pieces.map Prod.snd).sum = n) (hacc : IsSplit m done acc) :
    Succeeds (fun p => (splitLoop t (p + s).val (pieces.map fun pc => (pc.1.val, pc.2)) (input p) (acc p) :
      Proc R _)) (IsSplit (m + n) fun p => done p ++ input p) := by
  induction pieces generalizing m n done input acc with
  | nil =>
    have hnil : ∀ p, input p = [] := by
      intro p
      rw [← List.length_eq_zero_iff, hinput, ← htotal]
      rfl
    subst htotal
    simp only [hnil, List.append_nil]
    exact Succeeds.pure hacc
  | cons pc pieces ih =>
    obtain ⟨c, len⟩ := pc
    simp only [List.map_cons, splitLoop, hinput]
    by_cases hn : n = 0
    · have hnil : ∀ p, input p = [] := by
        intro p
        rw [← List.length_eq_zero_iff, hinput, hn]
      subst hn
      simp only [hnil, List.append_nil, if_true]
      exact Succeeds.pure hacc
    · simp only [hn, if_false]
      rw [List.map_cons, List.sum_cons] at htotal
      have htake : ∀ p, ((input p).take len).length = len := by
        intro p
        rw [List.length_take, hinput]
        omega
      have hdrop : ∀ p, ((input p).drop len).length = (pieces.map Prod.snd).sum := by
        intro p
        rw [List.length_drop, hinput]
        omega
      refine (splitPiece_succeeds s c htake).bind fun piece hpiece => ?_
      have hdone' : ∀ p, (done p ++ (input p).take len).length = m + len := by
        intro p
        rw [List.length_append, hdone, htake]
      refine (ih hdone' hdrop rfl (hacc.extend hdone hpiece)).mono fun r hr => ?_
      have hlen : m + len + (pieces.map Prod.snd).sum = m + n := by
        have hsnd : (c, len).2 = len := rfl
        omega
      simp only [List.append_assoc, List.take_append_drop] at hr
      rw [hlen] at hr
      exact hr

/-- The results `r` of `two_way_split` on the vectors `v`. -/
def IsTwoWay (n : Nat) (v : Party → List (Share K)) (r : Party → List (Share K) × List (Share K)) : Prop :=
  (∀ p, (r p).1.length = n ∧ (r p).2.length = n) ∧ ∀ xs, Shares v xs →
    ∃ ys zs, Shares (fun p => (r p).1) ys ∧ Shares (fun p => (r p).2) zs ∧
      xorSums ys zs = xs.map Rep3.sum

theorem IsSplit.isTwoWay {n : Nat} {v : Party → List (Share K)} {r : Party → Split K} (h : IsSplit n v r) :
    IsTwoWay n v fun p => (fromAb (r p).s1a (r p).s1b, fromAb (r p).s2a (r p).s2b) := by
  refine ⟨fun p => ?_, fun xs hx => ?_⟩
  · obtain ⟨h1, h2, h3, h4⟩ := h.1 p
    exact ⟨by rw [length_fromAb, h1, h2, Nat.min_self], by rw [length_fromAb, h3, h4, Nat.min_self]⟩
  · obtain ⟨ys, zs, -, -, hr, hsum⟩ := h.2 xs hx
    refine ⟨ys, zs, fun p => ?_, fun p => ?_, hsum⟩
    · show fromAb (r p).s1a (r p).s1b = _
      rw [hr p]
      exact fromAb_map ys p (p - 1)
    · show fromAb (r p).s2a (r p).s2b = _
      rw [hr p]
      exact fromAb_map zs p (p - 1)

/-- The role of a party is its index, rotated by the session. -/
theorem roleIndex_eq (p : Party) (sid : BitVec 32) :
    (Session.mk p sid).roleIndex = (p + Fin.ofNat 3 sid.toNat).val := by
  show (p.val + sid.toNat) % 3 = (p.val + sid.toNat % 3) % 3
  rw [Nat.add_mod_mod]

theorem twoWaySplit_succeeds (sid : BitVec 32) {n : Nat} {v : Party → List (Share t.bits)}
    (hv : ∀ p, (v p).length = n) :
    Succeeds (fun p => (twoWaySplit t ⟨p, sid⟩ (v p) : Proc R _)) (IsTwoWay n v) := by
  simp only [twoWaySplit, roleIndex_eq, hv]
  have hloop : Succeeds (fun p => (splitLoop t (p + Fin.ofNat 3 sid.toNat).val
      [(0, n / 3), (1, (n - n / 3) / 2), (2, n - n / 3 - (n - n / 3) / 2)] (v p) ⟨[], [], [], []⟩ :
      Proc R _)) (IsSplit (0 + n) fun p => [] ++ v p) :=
    splitLoop_succeeds _ [(0, n / 3), (1, (n - n / 3) / 2), (2, n - n / 3 - (n - n / 3) / 2)]
      (fun p => rfl) hv (by simp; omega) isSplit_nil
  simp only [List.nil_append, zero_add] at hloop
  exact hloop.bind fun r hr => Succeeds.pure hr.isTwoWay

end Loop

end AmpcCommon.Protocol
