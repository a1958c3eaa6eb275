import AmpcCommon.Base.Packing
import AmpcCommon.Protocol.Proofs.LiftProofs
import AmpcCommon.Protocol.Proofs.TotalityProofs

/-!
# Products of bit vectors, proofs

Packing puts the bit `i` of a list into the lane `i` of the words (`Carries.pack`), and the unpacked bits without the
padding are the AND of the two halves (`andHalves_bits`). A round keeps, for every position, the conjunction of the bits
at this position (`conjunction_round`); when one vector is left, it is the conjunction of all vectors.
-/

namespace AmpcCommon.Protocol

/-! ## Packing -/

/-- A bit of a list of bits. -/
def bitAt (l : List (BitVec 1)) (i : Nat) : Bool := (l.getD i 0).getLsbD 0

theorem getLsbD_packWord {K : Nat} (bits : List (BitVec 1)) {i : Nat} (hi : i < K) :
    (packWord K bits).getLsbD i = bitAt bits i := by
  unfold packWord
  rw [@Packing.bit_foldl_or (BitVec 1) (BitVec K) BitVec.getLsbD (fun b => b.getLsbD 0) _ i bits 0 0]
  · unfold bitAt
    simp only [List.getD_eq_getElem?_getD, List.getElem?_map]
    cases bits[i - 0]? <;> simp
  · intro word b j _
    have hshift := getLsbD_shifted b j (W := K) (c := i) (r := 0) Nat.one_pos (by omega)
    rw [Nat.one_mul, Nat.one_mul, Nat.add_zero] at hshift
    rw [BitVec.getLsbD_or, hshift]

/-- The components of packed words. -/
def packRep3 (K : Nat) (bits : List (Rep3 1)) : List (Rep3 K) :=
  (chunks K bits).map fun chunk p => packWord K (chunk.map fun x => x p)

theorem Shares.pack {K : Nat} {v : Party → List (Share 1)} {bits : List (Rep3 1)} (h : Shares v bits) :
    Shares (fun p => pack K (v p)) (packRep3 K bits) := by
  intro p
  show Protocol.pack K (v p) = _
  rw [h p]
  unfold Protocol.pack packRep3
  rw [chunks_map, List.map_map, List.map_map]
  refine List.map_congr_left fun chunk _ => ?_
  simp only [Function.comp_apply, List.map_map]
  rfl

theorem bitAt_map_xor (bits : List (Rep3 1)) (i : Nat) :
    bitAt (bits.map Rep3.xor) i = (bitAt (bits.map fun x => x 0) i ^^ bitAt (bits.map fun x => x 1) i ^^
      bitAt (bits.map fun x => x 2) i) := by
  unfold bitAt
  by_cases hi : i < bits.length
  · simp [hi, Rep3.xor]
  · simp [hi]

theorem lane_packRep3 {K : Nat} (hK : 0 < K) (bits : List (Rep3 1)) (i : Nat) :
    lane (i / K) (i % K) ((packRep3 K bits).map Rep3.xor) = bitAt (bits.map Rep3.xor) i := by
  have hmod : i % K < K := Nat.mod_lt i hK
  have hchunk : ∀ p, bitAt (((bits.drop (K * (i / K))).take K).map fun x => x p) (i % K) =
      bitAt (bits.map fun x => x p) i := by
    intro p
    unfold bitAt
    rw [List.getD_eq_getElem?_getD, List.getD_eq_getElem?_getD, List.getElem?_map, List.getElem?_map,
      List.getElem?_take_of_lt hmod, List.getElem?_drop, Nat.div_add_mod]
  unfold lane packRep3 chunks
  by_cases hword : i / K < (bits.length + K - 1) / K
  · rw [bitAt_map_xor]
    simp only [List.map_map]
    rw [List.getD_eq_getElem _ _ (by simpa using hword)]
    simp only [List.getElem_map, List.getElem_range, Function.comp_apply, Rep3.xor, BitVec.getLsbD_xor,
      getLsbD_packWord _ hmod, hchunk]
  · have hi : bits.length ≤ i := by
      have hle := Nat.div_lt_iff_lt_mul hK |>.not.mp hword
      have hmul := Nat.lt_div_mul_add (a := bits.length + K - 1) hK
      omega
    unfold bitAt
    rw [List.getD_eq_default _ _ (by simpa using not_lt.mp hword), List.getD_eq_default _ _ (by simpa using hi)]
    simp

/-- Packed bits carry the secrets in their lanes; the lanes of the padding are zero. -/
theorem Carries.pack {v : Party → List (Share 1)} {bits : List (Rep3 1)} (h : Shares v bits) :
    Carries True (words bits.length) (fun p => pack 64 (v p)) (bitAt (bits.map Rep3.xor)) := by
  refine ⟨fun p => ?_, fun _ => ⟨packRep3 64 bits, h.pack, lane_packRep3 (by decide) bits⟩⟩
  rw [length_pack, h.length]
  rfl

/-! ## A round -/

variable {R : Type} [Rng R] {len : Nat}

theorem ofBool_and_bitAt (a b : BitVec 1) : BitVec.ofBool (a.getLsbD 0 && b.getLsbD 0) = a &&& b := by
  revert a b
  decide

theorem map_and_bitAt {left right : List (BitVec 1)} (h : left.length = right.length) :
    ((List.range left.length).map fun i => BitVec.ofBool (bitAt left i && bitAt right i)) =
      List.zipWith (· &&& ·) left right := by
  refine List.ext_getElem (by simp [h]) fun i hi hi' => ?_
  have hlt : i < left.length := by simpa using hi
  rw [List.getElem_map, List.getElem_range, List.getElem_zipWith]
  unfold bitAt
  rw [List.getD_eq_getElem _ _ hlt, List.getD_eq_getElem _ _ (h ▸ hlt), ofBool_and_bitAt]

/-- The AND of the two halves, without the padding. -/
theorem andHalves_bits {half : Nat} {v : Party → List (List (Share 1))} {xss : List (List (Rep3 1))}
    (hv : SharesPlanes v xss) (hxss : IsPlanes (2 * half) len xss) :
    Succeeds (fun p => (andHalves (v p) : Proc R _)) fun r => ∃ bits,
      Shares (fun p => (convertToBits (r p)).take (half * len)) bits ∧
        bits.map Rep3.xor =
          List.zipWith (· &&& ·) ((opened xss).take half).flatten ((opened xss).drop half).flatten := by
  have hcount : ∀ p, (v p).length / 2 = half := by
    intro p
    rw [hv p, List.length_map, hxss.1]
    omega
  have hleft : Shares (fun p => ((v p).take half).flatten) (xss.take half).flatten := by
    intro p
    show ((v p).take half).flatten = _
    rw [hv p, ← List.map_take, List.map_flatten]
  have hright : Shares (fun p => ((v p).drop half).flatten) (xss.drop half).flatten := by
    intro p
    show ((v p).drop half).flatten = _
    rw [hv p, ← List.map_drop, List.map_flatten]
  have hleftlen : (xss.take half).flatten.length = half * len := length_flatten_planes (hxss.take (by omega))
  have hrightlen : (xss.drop half).flatten.length = half * len := by
    rw [length_flatten_planes hxss.drop, two_mul, Nat.add_sub_cancel]
  have hpackleft := Carries.pack hleft
  have hpackright := Carries.pack hright
  rw [hleftlen] at hpackleft
  rw [hrightlen] at hpackright
  simp only [andHalves, hcount]
  refine (andMany_carries (t := .u64) hpackleft hpackright).mono fun r hr => ?_
  obtain ⟨bits, hbits, hxor⟩ := hr.convertToBits.2 trivial
  refine ⟨bits, hbits, hxor.trans ?_⟩
  have hopened : ∀ l : List (List (Rep3 1)), l.flatten.map Rep3.xor = (opened l).flatten := fun l => List.map_flatten
  have hsame : ((xss.take half).flatten.map Rep3.xor).length = ((xss.drop half).flatten.map Rep3.xor).length := by
    rw [List.length_map, List.length_map, hleftlen, hrightlen]
  have hmap := map_and_bitAt hsame
  rw [List.length_map, hleftlen] at hmap
  rw [hmap, hopened, hopened]
  unfold opened
  rw [List.map_take, List.map_drop]

/-! ## The conjunction -/

/-- The conjunction of the bits at the position `j`. -/
def conjunction (rows : List (List (BitVec 1))) (j : Nat) : Bool := rows.all fun row => bitAt row j

theorem conjunction_append (rows rows' : List (List (BitVec 1))) (j : Nat) :
    conjunction (rows ++ rows') j = (conjunction rows j && conjunction rows' j) := List.all_append

theorem evenColumns_append {α : Type} (l : List (List α)) : evenColumns l ++ lastColumn l = l := by
  unfold evenColumns lastColumn
  by_cases hodd : l.length % 2 = 1
  · have hne : l ≠ [] := by
      rintro rfl
      cases hodd
    rw [if_pos hodd, if_pos hodd, List.getLast?_eq_some_getLast hne]
    exact List.dropLast_append_getLast hne
  · rw [if_neg hodd, if_neg hodd, List.append_nil]

theorem evenColumns_map {α β : Type} (f : List α → List β) (l : List (List α)) :
    evenColumns (l.map f) = (evenColumns l).map f := by
  unfold evenColumns
  rw [List.length_map]
  split
  · rw [List.map_dropLast]
  · rfl

theorem lastColumn_map {α β : Type} (f : List α → List β) (l : List (List α)) :
    lastColumn (l.map f) = (lastColumn l).map f := by
  unfold lastColumn
  rw [List.length_map]
  split
  · rw [List.getLast?_map]
    cases l.getLast? <;> rfl
  · rfl

theorem bitAt_zipWith {left right : List (BitVec 1)} (h : left.length = right.length) (j : Nat) :
    bitAt (List.zipWith (· &&& ·) left right) j = (bitAt left j && bitAt right j) := by
  unfold bitAt
  by_cases hj : j < left.length
  · have hj' : j < right.length := h ▸ hj
    simp [hj, hj']
  · have hj' : ¬ j < right.length := h ▸ hj
    simp [hj, hj']

theorem conjunction_zipWith {left right : List (List (BitVec 1))} (hlen : left.length = right.length)
    (hleft : ∀ row ∈ left, row.length = len) (hright : ∀ row ∈ right, row.length = len) (j : Nat) :
    conjunction (List.zipWith (List.zipWith (· &&& ·)) left right) j =
      (conjunction left j && conjunction right j) := by
  induction left generalizing right with
  | nil =>
    cases right with
    | nil => rfl
    | cons row right => cases hlen
  | cons row left ih =>
    cases right with
    | nil => cases hlen
    | cons row' right =>
      rw [List.forall_mem_cons] at hleft hright
      have ih := ih (Nat.succ_injective hlen) hleft.2 hright.2
      unfold conjunction at ih ⊢
      rw [List.zipWith_cons_cons, List.all_cons, List.all_cons, List.all_cons, ih,
        bitAt_zipWith (hleft.1.trans hright.1.symm)]
      ac_rfl

theorem zipWith_flatten_planes {k : Nat} {left right : List (List (BitVec 1))} (hleft : IsPlanes k len left)
    (hright : IsPlanes k len right) :
    List.zipWith (· &&& ·) left.flatten right.flatten = (List.zipWith (List.zipWith (· &&& ·)) left right).flatten := by
  induction left generalizing k right with
  | nil =>
    obtain rfl : right = [] := List.length_eq_zero_iff.mp (hright.1.trans hleft.1.symm)
    rfl
  | cons row left ih =>
    cases right with
    | nil => cases hright.1.trans hleft.1.symm
    | cons row' right =>
      have hrow : row.length = row'.length :=
        (hleft.2 row List.mem_cons_self).trans (hright.2 row' List.mem_cons_self).symm
      have ih := ih (k := left.length) ⟨rfl, fun x hx => hleft.2 x (List.mem_cons_of_mem _ hx)⟩
        ⟨Nat.succ_injective (hright.1.trans hleft.1.symm), fun x hx => hright.2 x (List.mem_cons_of_mem _ hx)⟩
      rw [List.flatten_cons, List.flatten_cons, List.zipWith_append hrow, ih, List.zipWith_cons_cons, List.flatten_cons]

theorem isPlanes_zipWith {k : Nat} {left right : List (List (BitVec 1))} (hleft : IsPlanes k len left)
    (hright : IsPlanes k len right) : IsPlanes k len (List.zipWith (List.zipWith (· &&& ·)) left right) := by
  refine ⟨by rw [List.length_zipWith, hleft.1, hright.1, Nat.min_self], fun row hrow => ?_⟩
  obtain ⟨i, hi, rfl⟩ := List.mem_iff_getElem.mp hrow
  rw [List.getElem_zipWith, List.length_zipWith, hleft.2 _ (List.getElem_mem _), hright.2 _ (List.getElem_mem _),
    Nat.min_self]

theorem isPlanes_opened {k : Nat} {xss : List (List (Rep3 1))} (h : IsPlanes k len xss) :
    IsPlanes k len (opened xss) :=
  isPlanes_of_map_length ((map_length_opened xss).trans h.map_length)

theorem SharesPlanes.evenColumns {v : Party → List (List (Share 1))} {xss : List (List (Rep3 1))}
    (h : SharesPlanes v xss) : SharesPlanes (fun p => evenColumns (v p)) (evenColumns xss) := by
  intro p
  show Protocol.evenColumns (v p) = _
  rw [h p, evenColumns_map]

/-- A round keeps the conjunction of the bits at every position. -/
theorem conjunction_round {k : Nat} (hlen : 0 < len) {v : Party → List (List (Share 1))} {xss : List (List (Rep3 1))}
    (hv : SharesPlanes v xss) (hxss : IsPlanes k len xss) :
    Succeeds (fun p => (andHalves (evenColumns (v p)) : Proc R _)) fun r => ∃ yss,
      IsPlanes (k / 2 + k % 2) len yss ∧
      SharesPlanes (fun p => chunks len ((convertToBits (r p)).take (k / 2 * len)) ++ lastColumn (v p)) yss ∧
      ∀ j, conjunction (opened yss) j = conjunction (opened xss) j := by
  have heven := isPlanes_evenColumns hxss
  refine (andHalves_bits hv.evenColumns heven).mono fun r ⟨bits, hbits, hxor⟩ => ?_
  have hrows := isPlanes_opened heven
  have hleft := hrows.take (m := k / 2) (by omega)
  have hright : IsPlanes (k / 2) len ((opened (evenColumns xss)).drop (k / 2)) := by
    have hdrop := hrows.drop (m := k / 2)
    rwa [two_mul, Nat.add_sub_cancel] at hdrop
  rw [zipWith_flatten_planes hleft hright] at hxor
  have hand := isPlanes_zipWith hleft hright
  have hcount : bits.length = k / 2 * len := by
    rw [← List.length_map Rep3.xor, hxor, length_flatten_planes hand]
  have hplanes : IsPlanes (k / 2) len (chunks len bits) := isPlanes_of_map_length (map_length_chunks hlen hcount)
  refine ⟨chunks len bits ++ lastColumn xss, hplanes.append (isPlanes_lastColumn hxss), fun p => ?_, fun j => ?_⟩
  · show chunks len ((convertToBits (r p)).take (k / 2 * len)) ++ lastColumn (v p) = _
    have hparty : (convertToBits (r p)).take (k / 2 * len) = bits.map (Rep3.view p) := hbits p
    rw [hparty, hv p, chunks_map, lastColumn_map, List.map_append]
  · have hchunks : opened (chunks len bits) = List.zipWith (List.zipWith (· &&& ·))
        ((opened (evenColumns xss)).take (k / 2)) ((opened (evenColumns xss)).drop (k / 2)) := by
      show (chunks len bits).map (List.map Rep3.xor) = _
      rw [← chunks_map, hxor, chunks_flatten hlen hand.2]
    have happend : opened xss = opened (evenColumns xss) ++ opened (lastColumn xss) := by
      unfold opened
      rw [← List.map_append, evenColumns_append]
    have hnew : opened (chunks len bits ++ lastColumn xss) = opened (chunks len bits) ++ opened (lastColumn xss) :=
      List.map_append
    rw [hnew, happend, conjunction_append, conjunction_append, hchunks,
      conjunction_zipWith (hleft.1.trans hright.1.symm) hleft.2 hright.2, ← conjunction_append, List.take_append_drop]

/-- The loop, by induction on the fuel: the last vector is the conjunction of all. -/
theorem andProductLoop_conjunction (hlen : 0 < len) (fuel : Nat) {k : Nat} (hk : 0 < k) (hfuel : k ≤ fuel)
    {v : Party → List (List (Share 1))} {xss : List (List (Rep3 1))} (hv : SharesPlanes v xss)
    (hxss : IsPlanes k len xss) :
    Succeeds (fun p => (andProductLoop len fuel (v p) : Proc R _)) fun r => ∃ zs, zs.length = len ∧
      SharesPlanes r [zs] ∧ ∀ j, bitAt (zs.map Rep3.xor) j = conjunction (opened xss) j := by
  induction fuel generalizing k v xss with
  | zero => omega
  | succ fuel ih =>
    have hcount : ∀ p, (v p).length = k := by
      intro p
      rw [hv p, List.length_map, hxss.1]
    by_cases hone : k ≤ 1
    · obtain rfl : k = 1 := by omega
      obtain ⟨zs, rfl⟩ := List.length_eq_one_iff.mp hxss.1
      have hdone : ∀ p, (v p).length ≤ 1 := fun p => (hcount p).le
      simp only [andProductLoop, if_pos (hdone _)]
      refine Succeeds.pure ⟨zs, hxss.2 zs (List.mem_singleton_self zs), hv, fun j => ?_⟩
      unfold conjunction opened
      rw [List.map_singleton, List.all_cons, List.all_nil, Bool.and_true]
    · have hmore : ∀ p, ¬ (v p).length ≤ 1 := by
        intro p
        rwa [hcount]
      simp only [fun p => andProductLoop_succ (R := R) len fuel (v p) (hmore p), if_neg hlen.ne']
      refine (conjunction_round hlen hv hxss).bind fun andBits hround => ?_
      obtain ⟨yss, hyss, hbits, hconj⟩ := hround
      have hhalf : ∀ p, (evenColumns (v p)).length / 2 = k / 2 := by
        intro p
        have hcolumns : evenColumns (v p) = (evenColumns xss).map (List.map (Rep3.view p)) := hv.evenColumns p
        rw [hcolumns, List.length_map, (isPlanes_evenColumns hxss).1]
        omega
      simp only [hhalf]
      refine (ih (by omega) (by omega) hbits hyss).mono fun r hrest => ?_
      obtain ⟨zs, hzs, hr, hbit⟩ := hrest
      exact ⟨zs, hzs, hr, fun j => (hbit j).trans (hconj j)⟩

variable {σ : Party → Prf R}

/-- The AND of one or more vectors of `len` bits is the conjunction of the bits at every position; the calls return an
error if and only if the list is empty or a vector has another length. -/
theorem andProduct_conjunction (hσ : Lockstep σ) :
    (∀ (len : Nat) (v : Party → List (List (Share 1))) (xss : List (List (Rep3 1))), 0 < len → xss ≠ [] →
      (∀ xs ∈ xss, xs.length = len) → SharesPlanes v xss →
      Network.Settles nextParty (fun p => andProduct (v p) len (σ p)) fun o => ∃ zs : List (Rep3 1), zs.length = len ∧
        (∀ p, (o p).1 = .ok (zs.map (Rep3.view p))) ∧
        ∀ j < len, bitAt (zs.map Rep3.xor) j = xss.all fun xs => bitAt (xs.map Rep3.xor) j) ∧
    (∀ (len : Nat) (v : Party → List (List (Share 1))) (shape : List Nat), Grouped shape v →
      (Network.Settles nextParty (fun p => andProduct (v p) len (σ p)) (fun o => ∀ p, ∃ m, (o p).1 = .bail m) ↔
        shape = [] ∨ ∃ n ∈ shape, n ≠ len)) := by
  constructor
  · intro len v xss hlen hne hsame hv
    have hxss : IsPlanes xss.length len xss := ⟨rfl, hsame⟩
    have hcount : (xss.map List.length).length = xss.length := List.length_map _
    have hshape : ValidProduct len (xss.map List.length) :=
      ⟨by simpa using hne, fun n hn => by
        obtain ⟨xs, hxs, rfl⟩ := List.mem_map.mp hn
        exact hsame xs hxs⟩
    have hsucceeds : Succeeds (fun p => (andProduct (v p) len : Proc R _)) fun r => ∃ zs : List (Rep3 1),
        zs.length = len ∧ Shares r zs ∧ ∀ j, bitAt (zs.map Rep3.xor) j = conjunction (opened xss) j := by
      simp only [andProduct_eq hv.map_length hshape, hcount]
      refine (andProductLoop_conjunction hlen _ (List.length_pos_of_ne_nil hne) le_rfl hv hxss).bind
        fun r ⟨zs, hzs, hr, hbit⟩ => ?_
      have hlast : ∀ p, (r p).getLast? = some (zs.map (Rep3.view p)) := by
        intro p
        rw [hr p]
        rfl
      simp only [hlast]
      exact Succeeds.pure ⟨zs, hzs, fun _ => rfl, hbit⟩
    have hends : Ends (fun p => (andProduct (v p) len : Proc R _)) fun o => ∃ zs : List (Rep3 1), zs.length = len ∧
        (∀ p, o p = .ok (zs.map (Rep3.view p))) ∧
        ∀ j < len, bitAt (zs.map Rep3.xor) j = xss.all fun xs => bitAt (xs.map Rep3.xor) j := by
      refine Ends.of_succeeds hsucceeds fun r ⟨zs, hzs, hr, hbit⟩ => ?_
      refine ⟨zs, hzs, fun p => congrArg Except.ok (hr p), fun j _ => (hbit j).trans ?_⟩
      unfold conjunction opened
      rw [List.all_map]
      rfl
    exact hends.settles hσ
  · intro len v shape hv
    have hinvalid : (shape = [] ∨ ∃ n ∈ shape, n ≠ len) ↔ ¬ ValidProduct len shape := by
      unfold ValidProduct
      push Not
      tauto
    rw [hinvalid]
    constructor
    · intro hbail hshape
      -- the parties end without an error, whatever the length
      have hends : Ends (fun p => (andProduct (v p) len : Proc R _)) fun o => ∀ p m, o p ≠ .bail m := by
        by_cases hextra : shape.length = 1 ∨ 0 < len
        · exact Ends.of_succeeds (andProduct_succeeds hv hshape hextra) fun r _ p m => nofun
        · push Not at hextra
          obtain rfl : len = 0 := Nat.eq_zero_of_not_pos fun hpos => absurd hpos (by omega)
          intro σ' hσ'
          obtain ⟨o, σ'', hjoint, ho⟩ := andProduct_panics hv hshape hextra.1 σ' hσ'
          refine ⟨o, σ'', hjoint, fun p m hm => ?_⟩
          obtain ⟨m', hm'⟩ := ho p
          cases hm.symm.trans hm'
      refine hends.not_settles (S := fun o => ∀ p, ∃ m, o p = .bail m) (fun o ho hbails => ?_) hσ hbail
      obtain ⟨m, hm⟩ := hbails 0
      exact ho 0 m hm
    · intro hshape
      exact (andProduct_bails hv hshape).settles hσ

/-- Three vectors of two bits: the second bits are all set, the first ones are not. -/
def threeVectors : List (List (Rep3 1)) :=
  [[fun _ => 1, ![0, 1, 0]], [![1, 1, 0], fun _ => 1], [fun _ => 1, ![1, 0, 0]]]

theorem andProduct_conjunction_three :
    (Network.Settles nextParty (fun p => andProduct (threeVectors.map (List.map (Rep3.view p))) 2 (stepStreams p))
      fun o => ∃ zs : List (Rep3 1), zs.length = 2 ∧ (∀ p, (o p).1 = .ok (zs.map (Rep3.view p))) ∧
        bitAt (zs.map Rep3.xor) 0 = false ∧ bitAt (zs.map Rep3.xor) 1 = true) ∧
    Network.Settles nextParty (fun p => andProduct (threeVectors.map (List.map (Rep3.view p))) 1 (stepStreams p))
      fun o => ∀ p, ∃ m, (o p).1 = .bail m := by
  obtain ⟨hproduct, herr⟩ := andProduct_conjunction lockstep_stepStreams
  constructor
  · refine (hproduct 2 _ threeVectors (by decide) (by decide) (by decide) fun _ => rfl).mono ?_
    rintro o ⟨zs, hzs, ho, hbit⟩
    exact ⟨zs, hzs, ho, hbit 0 (by decide), hbit 1 (by decide)⟩
  · exact (herr 1 _ [2, 2, 2] fun p => rfl).mpr (Or.inr ⟨2, by decide, by decide⟩)

end AmpcCommon.Protocol
