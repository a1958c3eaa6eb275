import AmpcCommon.Protocol.Proofs.GateProofs

/-!
# The parallel prefix adder, proofs

On plain bits, the carry of an addition is folded from carry propagates and generates (`carryOf`). A round of
the parallel prefix adder combines them pairwise and keeps the carry (`carry_prefixRound`), so the generate that
is left after the last round is the carry into the most significant bit.

`binaryAdd2GetMsb_succeeds` lifts this to shares: the loop always ends with one vector, and for consistent
inputs this is a sharing of the most significant bits of the sums, in every lane.
-/

namespace AmpcCommon.Protocol

/-! ## Even and odd positions -/

section EvenOdd

variable {α β γ : Type}

mutual

theorem evens_cons (x : α) : ∀ xs : List α, evens (x :: xs) = x :: odds xs
  | [] => rfl
  | y :: xs => by
    show x :: evens xs = x :: odds (y :: xs)
    rw [odds_cons y xs]

theorem odds_cons (x : α) : ∀ xs : List α, odds (x :: xs) = evens xs
  | [] => rfl
  | y :: xs => by
    show y :: odds xs = evens (y :: xs)
    rw [evens_cons y xs]

end

theorem length_evens_odds (xs : List α) :
    (evens xs).length = (xs.length + 1) / 2 ∧ (odds xs).length = xs.length / 2 := by
  induction xs with
  | nil => simp [evens, odds]
  | cons x xs ih =>
    obtain ⟨hevens, hodds⟩ := ih
    rw [evens_cons, odds_cons, List.length_cons, List.length_cons]
    omega

theorem evens_odds_map (f : α → β) (xs : List α) :
    evens (xs.map f) = (evens xs).map f ∧ odds (xs.map f) = (odds xs).map f := by
  induction xs with
  | nil => exact ⟨rfl, rfl⟩
  | cons x xs ih =>
    obtain ⟨hevens, hodds⟩ := ih
    rw [List.map_cons, evens_cons, odds_cons, evens_cons, odds_cons, hevens, hodds, List.map_cons]
    exact ⟨rfl, rfl⟩

theorem mem_of_mem_evens_odds (x : α) (xs : List α) : (x ∈ evens xs → x ∈ xs) ∧ (x ∈ odds xs → x ∈ xs) := by
  induction xs with
  | nil => exact ⟨id, id⟩
  | cons y xs ih =>
    rw [evens_cons, odds_cons]
    constructor
    · intro h
      rcases List.mem_cons.mp h with rfl | h
      · exact List.mem_cons_self
      · exact List.mem_cons_of_mem _ (ih.2 h)
    · exact fun h => List.mem_cons_of_mem _ (ih.1 h)

end EvenOdd

/-! ## Carries of plain bits -/

/-- The carry after the positions with propagates `ps` and generates `gs`, for the carry `c` into them. -/
def carryOf (c : Bool) : List Bool → List Bool → Bool
  | p :: ps, g :: gs => carryOf (g ^^ (p && c)) ps gs
  | _, _ => c

/-- The carry after the positions with generates `gs`; the first propagate is left out. -/
def carryAll (ps : List Bool) : List Bool → Bool
  | [] => false
  | g :: gs => carryOf g ps gs

theorem carryOf_concat (c : Bool) {ps gs : List Bool} (h : ps.length = gs.length) (p g : Bool) :
    carryOf c (ps ++ [p]) (gs ++ [g]) = (g ^^ (p && carryOf c ps gs)) := by
  induction ps generalizing c gs with
  | nil =>
    cases List.length_eq_zero_iff.mp h.symm
    rfl
  | cons p' ps ih =>
    cases gs with
    | nil => cases h
    | cons g' gs => exact ih _ (by simpa using h)

theorem carryAll_concat {ps gs : List Bool} (h : ps.length + 1 = gs.length) (p g : Bool) :
    carryAll (ps ++ [p]) (gs ++ [g]) = (g ^^ (p && carryAll ps gs)) := by
  cases gs with
  | nil => cases h
  | cons g' gs => exact carryOf_concat g' (by simpa using h) p g

/-- Two positions are combined into one. -/
theorem carryOf_pairs (n : Nat) (c : Bool) {ps gs : List Bool} (hp : ps.length = 2 * n)
    (hg : gs.length = 2 * n) :
    carryOf c (List.zipWith and (evens ps) (odds ps))
      (List.zipWith xor (List.zipWith and (evens gs) (odds ps)) (odds gs)) = carryOf c ps gs := by
  induction n generalizing c ps gs with
  | zero =>
    cases List.length_eq_zero_iff.mp hp
    cases List.length_eq_zero_iff.mp hg
    rfl
  | succ n ih =>
    match ps, gs, hp, hg with
    | p :: p' :: ps, g :: g' :: gs, hp, hg =>
      have hstep : ((g && p') ^^ g' ^^ ((p && p') && c)) = (g' ^^ (p' && (g ^^ (p && c)))) := by
        cases p <;> cases p' <;> cases g <;> cases g' <;> cases c <;> rfl
      simp only [evens_cons, odds_cons, List.zipWith_cons_cons, carryOf]
      rw [hstep]
      exact ih _ (by simpa [Nat.mul_succ] using hp) (by simpa [Nat.mul_succ] using hg)

/-- The products of one round of the prefix adder on propagates and generates. -/
def roundTmp {α : Type} (and : α → α → α) (ps gs : List α) : List α :=
  List.zipWith and (odds ps ++ evens gs) ((evens ps).drop 1 ++ evens ps)

/-- One round of the prefix adder on lists of even length. -/
def evenRound {α : Type} (and xor : α → α → α) (ps gs : List α) : List α × List α :=
  let tmp := roundTmp and ps gs
  (tmp.take (odds ps).length, List.zipWith xor (tmp.drop (odds ps).length) (odds gs))

/-- One round of the prefix adder; a list of odd length keeps its last element. -/
def prefixRound {α : Type} (and xor : α → α → α) (ps gs : List α) : List α × List α :=
  if gs.length % 2 = 1 then
    let (ps', gs') := evenRound and xor ps.dropLast gs.dropLast
    (ps' ++ ps.getLast?.toList, gs' ++ gs.getLast?.toList)
  else evenRound and xor ps gs

/-- The parts of a round on lists that begin with `p`, and with `g` and `g'`. -/
theorem evenRound_cons {α : Type} (and xor : α → α → α) (p g g' : α) {ps gs : List α}
    (h : ps.length = gs.length) (heven : ps.length % 2 = 0) :
    evenRound and xor (p :: ps) (g :: g' :: gs) =
      (List.zipWith and (evens ps) (odds ps),
        xor (and g p) g' :: List.zipWith xor (List.zipWith and (evens gs) (odds ps)) (odds gs)) := by
  obtain ⟨hevens, hodds⟩ := length_evens_odds ps
  have hlen : (evens ps).length = (odds ps).length := by omega
  have htmp : roundTmp and (p :: ps) (g :: g' :: gs) =
      List.zipWith and (evens ps) (odds ps) ++ and g p :: List.zipWith and (evens gs) (odds ps) := by
    unfold roundTmp
    simp only [evens_cons, odds_cons, List.drop_succ_cons, List.drop_zero]
    rw [List.zipWith_append hlen]
    rfl
  have hzip : (List.zipWith and (evens ps) (odds ps)).length = (evens ps).length := by
    rw [List.length_zipWith, ← hlen, Nat.min_self]
  unfold evenRound
  simp only [htmp, odds_cons, evens_cons]
  rw [← hzip, List.take_left, List.drop_left]
  rfl

theorem carryAll_evenRound {ps gs : List Bool} (h : ps.length + 1 = gs.length) (heven : gs.length % 2 = 0) :
    carryAll (evenRound and xor ps gs).1 (evenRound and xor ps gs).2 = carryAll ps gs := by
  match ps, gs, h with
  | p :: ps, g :: g' :: gs, h =>
    simp only [List.length_cons] at h heven
    have hlen : ps.length = gs.length := by omega
    rw [evenRound_cons and xor p g g' hlen (by omega)]
    have hstep : ((g && p) ^^ g') = (g' ^^ (p && g)) := by
      cases p <;> cases g <;> cases g' <;> rfl
    show carryOf ((g && p) ^^ g') _ _ = carryOf (g' ^^ (p && g)) ps gs
    rw [hstep]
    exact carryOf_pairs (gs.length / 2) _ (by omega) (by omega)
  | [], [g], h => simp at heven

theorem length_evenRound {α : Type} (and xor : α → α → α) {ps gs : List α} (h : ps.length + 1 = gs.length)
    (heven : gs.length % 2 = 0) :
    (evenRound and xor ps gs).1.length = gs.length / 2 - 1 ∧
      (evenRound and xor ps gs).2.length = gs.length / 2 := by
  match ps, gs, h with
  | p :: ps, g :: g' :: gs, h =>
    simp only [List.length_cons] at h heven
    have hlen : ps.length = gs.length := by omega
    rw [evenRound_cons and xor p g g' hlen (by omega)]
    have hps := length_evens_odds ps
    have hgs := length_evens_odds gs
    simp only [List.length_zipWith, List.length_cons]
    omega
  | [], [g], h => simp at heven

/-- **A round keeps the carry.** -/
theorem carry_prefixRound {ps gs : List Bool} (h : ps.length + 1 = gs.length) (hone : 1 < gs.length) :
    carryAll (prefixRound and xor ps gs).1 (prefixRound and xor ps gs).2 = carryAll ps gs := by
  unfold prefixRound
  split
  next hodd =>
    have hps : ps ≠ [] := by
      rintro rfl
      simp at h
      omega
    have hgs : gs ≠ [] := by
      rintro rfl
      simp at hone
    have hlen : ps.dropLast.length + 1 = gs.dropLast.length := by
      simp only [List.length_dropLast]
      omega
    have heven : gs.dropLast.length % 2 = 0 := by
      simp only [List.length_dropLast]
      omega
    obtain ⟨hlen1, hlen2⟩ := length_evenRound and xor hlen heven
    have hpos : 2 ≤ gs.dropLast.length := by
      simp only [List.length_dropLast]
      omega
    simp only [List.getLast?_eq_some_getLast hps, List.getLast?_eq_some_getLast hgs, Option.toList_some]
    rw [carryAll_concat (by omega), carryAll_evenRound hlen heven, ← carryAll_concat hlen,
      List.dropLast_append_getLast, List.dropLast_append_getLast]
  next heven => exact carryAll_evenRound h (by omega)

/-! ## The inputs and the result of a round

The program computes the products of a round with one gate. `roundLeft` and `roundRight` are the inputs of this
gate, and `roundFinish` is what is made of its result. -/

section Round

variable {α β : Type}

/-- A list without its last element, if the list of generates has odd length. -/
def trimmed (gs xs : List α) : List α := if gs.length % 2 = 1 then xs.dropLast else xs

/-- The last element of a list, if the list of generates has odd length. -/
def extra (gs xs : List α) : List α := if gs.length % 2 = 1 then xs.getLast?.toList else []

def roundLeft (ps gs : List α) : List α := odds (trimmed gs ps) ++ evens (trimmed gs gs)

def roundRight (ps gs : List α) : List α := (evens (trimmed gs ps)).drop 1 ++ evens (trimmed gs ps)

def roundFinish (xor : α → α → α) (ps gs tmp : List α) : List α × List α :=
  (tmp.take (odds (trimmed gs ps)).length ++ extra gs ps,
    List.zipWith xor (tmp.drop (odds (trimmed gs ps)).length) (odds (trimmed gs gs)) ++ extra gs gs)

theorem prefixRound_eq (and xor : α → α → α) (ps gs : List α) :
    prefixRound and xor ps gs =
      roundFinish xor ps gs (List.zipWith and (roundLeft ps gs) (roundRight ps gs)) := by
  unfold prefixRound roundFinish roundLeft roundRight trimmed extra
  split
  next h => rfl
  next h =>
    simp only [List.append_nil]
    rfl

theorem trimmed_map (f : α → β) (gs xs : List α) : trimmed (gs.map f) (xs.map f) = (trimmed gs xs).map f := by
  unfold trimmed
  rw [List.length_map]
  split
  next => rw [List.map_dropLast]
  next => rfl

theorem extra_map (f : α → β) (gs xs : List α) : extra (gs.map f) (xs.map f) = (extra gs xs).map f := by
  unfold extra
  rw [List.length_map]
  split
  next => rw [List.getLast?_map, Option.toList_map]
  next => rfl

theorem roundLeft_map (f : α → β) (ps gs : List α) :
    roundLeft (ps.map f) (gs.map f) = (roundLeft ps gs).map f := by
  unfold roundLeft
  rw [trimmed_map, trimmed_map, (evens_odds_map f _).1, (evens_odds_map f _).2, List.map_append]

theorem roundRight_map (f : α → β) (ps gs : List α) :
    roundRight (ps.map f) (gs.map f) = (roundRight ps gs).map f := by
  unfold roundRight
  rw [trimmed_map, (evens_odds_map f _).1, ← List.map_drop, List.map_append]

theorem zipWith_map_of {op : α → α → α} {op' : β → β → β} {f : α → β} {xs ys : List α}
    (h : ∀ x ∈ xs, ∀ y ∈ ys, f (op x y) = op' (f x) (f y)) :
    List.zipWith op' (xs.map f) (ys.map f) = (List.zipWith op xs ys).map f := by
  induction xs generalizing ys with
  | nil => rfl
  | cons x xs ih =>
    cases ys with
    | nil => rfl
    | cons y ys =>
      simp only [List.map_cons, List.zipWith_cons_cons]
      rw [h x List.mem_cons_self y List.mem_cons_self, ih fun x' hx' y' hy' =>
        h x' (List.mem_cons_of_mem _ hx') y' (List.mem_cons_of_mem _ hy')]

theorem mem_of_mem_trimmed {x : α} {gs xs : List α} (h : x ∈ trimmed gs xs) : x ∈ xs := by
  unfold trimmed at h
  split at h
  next => exact List.mem_of_mem_dropLast h
  next => exact h

theorem mem_of_mem_extra {x : α} {gs xs : List α} (h : x ∈ extra gs xs) : x ∈ xs := by
  unfold extra at h
  split at h
  next =>
    rw [Option.mem_toList] at h
    exact List.mem_of_getLast? h
  next => cases h

theorem mem_of_mem_roundLeft {x : α} {ps gs : List α} (h : x ∈ roundLeft ps gs) : x ∈ ps ∨ x ∈ gs := by
  rcases List.mem_append.mp h with h | h
  · exact Or.inl (mem_of_mem_trimmed ((mem_of_mem_evens_odds x _).2 h))
  · exact Or.inr (mem_of_mem_trimmed ((mem_of_mem_evens_odds x _).1 h))

theorem mem_of_mem_roundRight {x : α} {ps gs : List α} (h : x ∈ roundRight ps gs) : x ∈ ps := by
  rcases List.mem_append.mp h with h | h
  · exact mem_of_mem_trimmed ((mem_of_mem_evens_odds x _).1 (List.mem_of_mem_drop h))
  · exact mem_of_mem_trimmed ((mem_of_mem_evens_odds x _).1 h)

theorem roundFinish_map {xor : α → α → α} {xor' : β → β → β} {f : α → β} (ps : List α) {gs tmp : List α}
    (h : ∀ x ∈ tmp, ∀ y ∈ gs, f (xor x y) = xor' (f x) (f y)) :
    roundFinish xor' (ps.map f) (gs.map f) (tmp.map f) =
      ((roundFinish xor ps gs tmp).1.map f, (roundFinish xor ps gs tmp).2.map f) := by
  unfold roundFinish
  rw [trimmed_map, trimmed_map, extra_map, extra_map, (evens_odds_map f _).2, (evens_odds_map f _).2,
    List.length_map, ← List.map_take, ← List.map_drop, zipWith_map_of, List.map_append, List.map_append]
  intro x hx y hy
  exact h x (List.mem_of_mem_drop hx) y (mem_of_mem_trimmed ((mem_of_mem_evens_odds y _).2 hy))

theorem length_trimmed {ps gs : List α} (h : ps.length + 1 = gs.length) :
    (trimmed gs ps).length = gs.length - gs.length % 2 - 1 ∧
      (trimmed gs gs).length = gs.length - gs.length % 2 ∧
      ∀ xs : List α, 0 < xs.length → (extra gs xs).length = gs.length % 2 := by
  unfold trimmed extra
  split
  next hodd =>
    simp only [List.length_dropLast]
    refine ⟨by omega, by omega, fun xs hxs => ?_⟩
    rw [List.getLast?_eq_some_getLast (List.ne_nil_of_length_pos hxs), hodd]
    rfl
  next heven =>
    have hmod : gs.length % 2 = 0 := by omega
    exact ⟨by omega, by omega, fun xs _ => hmod.symm⟩

theorem length_roundLeft_right {ps gs : List α} (h : ps.length + 1 = gs.length) :
    (roundLeft ps gs).length = gs.length - gs.length % 2 - 1 ∧
      (roundRight ps gs).length = gs.length - gs.length % 2 - 1 := by
  obtain ⟨hps, hgs, -⟩ := length_trimmed h
  have hp := length_evens_odds (trimmed gs ps)
  have hg := length_evens_odds (trimmed gs gs)
  simp only [roundLeft, roundRight, List.length_append, List.length_drop]
  omega

theorem length_roundFinish (xor : α → α → α) {ps gs tmp : List α} (h : ps.length + 1 = gs.length)
    (hone : 1 < gs.length) (htmp : tmp.length = gs.length - gs.length % 2 - 1) :
    (roundFinish xor ps gs tmp).1.length = gs.length / 2 + gs.length % 2 - 1 ∧
      (roundFinish xor ps gs tmp).2.length = gs.length / 2 + gs.length % 2 := by
  obtain ⟨hps, hgs, hextra⟩ := length_trimmed h
  have hp := length_evens_odds (trimmed gs ps)
  have hg := length_evens_odds (trimmed gs gs)
  have hep := hextra ps (by omega)
  have heg := hextra gs (by omega)
  simp only [roundFinish, List.length_append, List.length_take, List.length_zipWith, List.length_drop]
  omega

theorem mem_of_mem_roundFinish {xor : α → α → α} {ps gs tmp : List α} {x : α}
    (h : x ∈ (roundFinish xor ps gs tmp).1 ∨ x ∈ (roundFinish xor ps gs tmp).2) :
    x ∈ ps ∨ x ∈ gs ∨ x ∈ tmp ∨ ∃ y ∈ tmp, ∃ z ∈ gs, x = xor y z := by
  rcases h with h | h
  · rcases List.mem_append.mp h with h | h
    · exact Or.inr (Or.inr (Or.inl (List.mem_of_mem_take h)))
    · exact Or.inl (mem_of_mem_extra h)
  · rcases List.mem_append.mp h with h | h
    · obtain ⟨i, hi, rfl⟩ := List.mem_iff_getElem.mp h
      rw [List.getElem_zipWith]
      refine Or.inr (Or.inr (Or.inr ⟨_, List.mem_of_mem_drop (List.getElem_mem _), _, ?_, rfl⟩))
      exact mem_of_mem_trimmed ((mem_of_mem_evens_odds _ _).2 (List.getElem_mem _))
    · exact Or.inr (Or.inl (mem_of_mem_extra h))

end Round

/-! ## The loop on shares -/

section Shares

variable {K : Nat}

/-- A list of `n` vectors of length `w`. -/
def IsPlanes {α : Type} (n w : Nat) (l : List (List α)) : Prop := l.length = n ∧ ∀ x ∈ l, x.length = w

theorem IsPlanes.map_length {α : Type} {n w : Nat} {l : List (List α)} (h : IsPlanes n w l) :
    l.map List.length = List.replicate n w := by
  rw [List.eq_replicate_iff, List.length_map]
  refine ⟨h.1, fun k hk => ?_⟩
  obtain ⟨x, hx, rfl⟩ := List.mem_map.mp hk
  exact h.2 x hx

theorem isPlanes_of_map_length {α : Type} {n w : Nat} {l : List (List α)}
    (h : l.map List.length = List.replicate n w) : IsPlanes n w l := by
  rw [List.eq_replicate_iff, List.length_map] at h
  exact ⟨h.1, fun x hx => h.2 _ (List.mem_map_of_mem hx)⟩

/-- The bit `n` of the word `j`, one lane of the circuit. -/
def lane (j n : Nat) (x : List (BitVec K)) : Bool := (x.getD j 0).getLsbD n

theorem lane_zipWith {op : BitVec K → BitVec K → BitVec K} {op' : Bool → Bool → Bool}
    (hop : ∀ (x y : BitVec K) n, (op x y).getLsbD n = op' (x.getLsbD n) (y.getLsbD n))
    (hzero : op' false false = false) {x y : List (BitVec K)} (h : x.length = y.length) (j n : Nat) :
    lane j n (List.zipWith op x y) = op' (lane j n x) (lane j n y) := by
  unfold lane
  by_cases hj : j < x.length
  · have hj' : j < y.length := by omega
    simp [List.getD_eq_getElem?_getD, hj, hj', hop]
  · have hj' : ¬ j < y.length := by omega
    simp [List.getD_eq_getElem?_getD, hj, hj', hzero]

theorem lane_and {x y : List (BitVec K)} (h : x.length = y.length) (j n : Nat) :
    lane j n (List.zipWith (· &&& ·) x y) = (lane j n x && lane j n y) :=
  lane_zipWith (fun _ _ _ => BitVec.getLsbD_and) rfl h j n

theorem lane_xor {x y : List (BitVec K)} (h : x.length = y.length) (j n : Nat) :
    lane j n (List.zipWith (· ^^^ ·) x y) = (lane j n x ^^ lane j n y) :=
  lane_zipWith (fun _ _ _ => BitVec.getLsbD_xor) rfl h j n

/-- The sum of two binary sharings. -/
def xorRep3 (x y : Rep3 K) : Rep3 K := fun p => x p ^^^ y p

theorem xor_xorRep3 (x y : Rep3 K) : (xorRep3 x y).xor = x.xor ^^^ y.xor := by
  show (x 0 ^^^ y 0) ^^^ (x 1 ^^^ y 1) ^^^ (x 2 ^^^ y 2) = _
  unfold Rep3.xor
  ac_rfl

theorem vecShareXor_map (p : Party) (x y : List (Rep3 K)) :
    vecShareXor (x.map (Rep3.view p)) (y.map (Rep3.view p)) =
      (List.zipWith xorRep3 x y).map (Rep3.view p) :=
  zipWith_map_of fun _ _ _ _ => rfl

theorem map_xor_zipWith (x y : List (Rep3 K)) :
    (List.zipWith xorRep3 x y).map Rep3.xor = List.zipWith (· ^^^ ·) (x.map Rep3.xor) (y.map Rep3.xor) :=
  (zipWith_map_of fun _ _ _ _ => xor_xorRep3 _ _).symm

/-- The bit lanes of the secrets of a list of vectors. -/
def lanes (j n : Nat) (xss : List (List (Rep3 K))) : List Bool := (opened xss).map (lane j n)

/-- The result of the loop: one vector, which shares the carries of consistent inputs. -/
def IsCarry (w : Nat) (ps gs r : Party → List (List (Share K))) : Prop :=
  (∀ p, IsPlanes 1 w (r p)) ∧ ∀ xss yss, SharesPlanes ps xss → SharesPlanes gs yss →
    ∃ zss, SharesPlanes r zss ∧ ∀ j n, lanes j n zss = [carryAll (lanes j n xss) (lanes j n yss)]

theorem lanes_and {n w : Nat} {xss yss zss : List (List (Rep3 K))} (hx : IsPlanes n w xss)
    (hy : IsPlanes n w yss)
    (hz : opened zss = List.zipWith (List.zipWith (· &&& ·)) (opened xss) (opened yss)) (j k : Nat) :
    lanes j k zss = List.zipWith and (lanes j k xss) (lanes j k yss) := by
  unfold lanes
  rw [hz]
  refine (zipWith_map_of fun x hx' y hy' => lane_and ?_ j k).symm
  obtain ⟨x', hx'', rfl⟩ := List.mem_map.mp hx'
  obtain ⟨y', hy'', rfl⟩ := List.mem_map.mp hy'
  rw [List.length_map, List.length_map, hx.2 x' hx'', hy.2 y' hy'']

theorem isPlanes_round {α : Type} {n w : Nat} {ps gs : List (List α)} (hps : IsPlanes n w ps)
    (hgs : IsPlanes (n + 1) w gs) :
    IsPlanes (n + 1 - (n + 1) % 2 - 1) w (roundLeft ps gs) ∧
      IsPlanes (n + 1 - (n + 1) % 2 - 1) w (roundRight ps gs) := by
  have hlen := length_roundLeft_right (show ps.length + 1 = gs.length by rw [hps.1, hgs.1])
  rw [hgs.1] at hlen
  refine ⟨⟨hlen.1, fun x hx => ?_⟩, ⟨hlen.2, fun x hx => hps.2 x (mem_of_mem_roundRight hx)⟩⟩
  rcases mem_of_mem_roundLeft hx with h | h
  · exact hps.2 x h
  · exact hgs.2 x h

/-- The products of a round that are computed by a gate make the lanes of the round. -/
theorem lanes_roundFinish {n w : Nat} {xss yss zss : List (List (Rep3 K))} (hx : IsPlanes n w xss)
    (hy : IsPlanes (n + 1) w yss) (hz : ∀ z ∈ zss, z.length = w)
    (hgate : opened zss = List.zipWith (List.zipWith (· &&& ·)) (opened (roundLeft xss yss))
      (opened (roundRight xss yss))) (j k : Nat) :
    lanes j k (roundFinish (List.zipWith xorRep3) xss yss zss).1 =
        (prefixRound and xor (lanes j k xss) (lanes j k yss)).1 ∧
      lanes j k (roundFinish (List.zipWith xorRep3) xss yss zss).2 =
        (prefixRound and xor (lanes j k xss) (lanes j k yss)).2 := by
  -- the lanes of the secrets of one vector
  have hlane : ∀ (l : List (List (Rep3 K))), lanes j k l = l.map fun x => lane j k (x.map Rep3.xor) :=
    fun l => List.map_map
  have hprod : lanes j k zss = List.zipWith and (roundLeft (lanes j k xss) (lanes j k yss))
      (roundRight (lanes j k xss) (lanes j k yss)) := by
    obtain ⟨hleft, hright⟩ := isPlanes_round hx hy
    rw [lanes_and hleft hright hgate]
    simp only [hlane]
    rw [roundLeft_map, roundRight_map]
  have hxor : ∀ x ∈ zss, ∀ y ∈ yss, lane j k ((List.zipWith xorRep3 x y).map Rep3.xor) =
      (lane j k (x.map Rep3.xor) ^^ lane j k (y.map Rep3.xor)) := by
    intro x hx' y hy'
    rw [map_xor_zipWith, lane_xor]
    rw [List.length_map, List.length_map, hz x hx', hy.2 y hy']
  have hfinish := @roundFinish_map _ _ (List.zipWith xorRep3) xor (fun x => lane j k (x.map Rep3.xor)) xss yss zss hxor
  rw [prefixRound_eq, ← hprod]
  simp only [hlane]
  rw [hfinish]
  exact ⟨rfl, rfl⟩

variable {R : Type} [Rng R] {t : RingTy}

/-- A round, when both lists are as long as they should be. -/
theorem prefixLoopRound_eq {ps gs : List (List (Share t.bits))} (h : ps.length + 1 = gs.length) (hone : 1 < gs.length) :
    (prefixLoopRound t ps gs : Proc R _) =
      (transposedPackAnd t (roundLeft ps gs) (roundRight ps gs) >>= fun tmp =>
        pure (roundFinish vecShareXor ps gs tmp)) := by
  obtain ⟨hps, hgs, -⟩ := length_trimmed h
  have hevens := (length_evens_odds (trimmed gs ps)).1
  have hne : ¬ ((trimmed gs gs).isEmpty = true ∨ (evens (trimmed gs ps)).isEmpty = true) := by
    rw [List.isEmpty_iff_length_eq_zero, List.isEmpty_iff_length_eq_zero]
    omega
  exact if_neg hne

theorem prefixLoop_step (fuel : Nat) {ps gs : List (List (Share t.bits))} (h : ps.length + 1 = gs.length)
    (hone : 1 < gs.length) :
    (prefixLoop t (fuel + 1) ps gs : Proc R _) =
      (transposedPackAnd t (roundLeft ps gs) (roundRight ps gs) >>= fun tmp =>
        prefixLoop t fuel (roundFinish vecShareXor ps gs tmp).1 (roundFinish vecShareXor ps gs tmp).2) := by
  rw [prefixLoop, if_neg (by omega), prefixLoopRound_eq h hone, bind_assoc]
  simp only [pure_bind]

theorem isPlanes_roundFinish {α : Type} {n w : Nat} {op : List α → List α → List α}
    (hop : ∀ x y, x.length = w → y.length = w → (op x y).length = w) {ps gs tmp : List (List α)} (hn : 0 < n)
    (hps : IsPlanes n w ps) (hgs : IsPlanes (n + 1) w gs)
    (htmp : IsPlanes (n + 1 - (n + 1) % 2 - 1) w tmp) :
    IsPlanes ((n + 1) / 2 + (n + 1) % 2 - 1) w (roundFinish op ps gs tmp).1 ∧
      IsPlanes ((n + 1) / 2 + (n + 1) % 2 - 1 + 1) w (roundFinish op ps gs tmp).2 := by
  have htmp' : tmp.length = gs.length - gs.length % 2 - 1 := by
    rw [hgs.1]
    exact htmp.1
  have hlen := length_roundFinish op (show ps.length + 1 = gs.length by rw [hps.1, hgs.1])
    (by rw [hgs.1]; omega) htmp'
  rw [hgs.1] at hlen
  have hmem : ∀ x, x ∈ (roundFinish op ps gs tmp).1 ∨ x ∈ (roundFinish op ps gs tmp).2 →
      x.length = w := by
    intro x hx
    rcases mem_of_mem_roundFinish hx with h | h | h | ⟨y, hy, z, hz, rfl⟩
    · exact hps.2 x h
    · exact hgs.2 x h
    · exact htmp.2 x h
    · exact hop y z (htmp.2 y hy) (hgs.2 z hz)
  exact ⟨⟨hlen.1, fun x hx => hmem x (Or.inl hx)⟩, ⟨by omega, fun x hx => hmem x (Or.inr hx)⟩⟩

/-- A round keeps the carries of consistent inputs. -/
theorem isCarry_of_round {n w : Nat} (hn : 0 < n) {ps gs tmp r : Party → List (List (Share K))}
    (hps : ∀ p, IsPlanes n w (ps p)) (hgs : ∀ p, IsPlanes (n + 1) w (gs p))
    (hand : IsAndPlanes (List.replicate (n + 1 - (n + 1) % 2 - 1) w) (fun p => roundLeft (ps p) (gs p))
      (fun p => roundRight (ps p) (gs p)) tmp)
    (hr : IsCarry w (fun p => (roundFinish vecShareXor (ps p) (gs p) (tmp p)).1)
      (fun p => (roundFinish vecShareXor (ps p) (gs p) (tmp p)).2) r) : IsCarry w ps gs r := by
  refine ⟨hr.1, fun xss yss hx hy => ?_⟩
  obtain ⟨zss, hsizes, hz, hgate⟩ := hand
  have hleft : SharesPlanes (fun p => roundLeft (ps p) (gs p)) (roundLeft xss yss) := by
    intro p
    show roundLeft (ps p) (gs p) = _
    rw [hx p, hy p, roundLeft_map]
  have hright : SharesPlanes (fun p => roundRight (ps p) (gs p)) (roundRight xss yss) := by
    intro p
    show roundRight (ps p) (gs p) = _
    rw [hx p, hy p, roundRight_map]
  have hfinish : ∀ p, roundFinish vecShareXor (ps p) (gs p) (tmp p) =
      ((roundFinish (List.zipWith xorRep3) xss yss zss).1.map (List.map (Rep3.view p)),
        (roundFinish (List.zipWith xorRep3) xss yss zss).2.map (List.map (Rep3.view p))) := by
    intro p
    rw [hx p, hy p, hz p, roundFinish_map]
    exact fun x _ y _ => (vecShareXor_map p x y).symm
  obtain ⟨us, hu, hlanes⟩ := hr.2 _ _ (fun p => congrArg Prod.fst (hfinish p))
    (fun p => congrArg Prod.snd (hfinish p))
  refine ⟨us, hu, fun j k => ?_⟩
  have hxp : IsPlanes n w xss := isPlanes_of_map_length (by rw [← hx.map_length 0, (hps 0).map_length])
  have hyp : IsPlanes (n + 1) w yss :=
    isPlanes_of_map_length (by rw [← hy.map_length 0, (hgs 0).map_length])
  obtain ⟨hl1, hl2⟩ := lanes_roundFinish hxp hyp (isPlanes_of_map_length hsizes).2
    (hgate _ _ hleft hright) j k
  have hxl : (lanes j k xss).length = n := by simp [lanes, opened, hxp.1]
  have hyl : (lanes j k yss).length = n + 1 := by simp [lanes, opened, hyp.1]
  rw [hlanes, hl1, hl2, carry_prefixRound (by omega) (by omega)]

/-- **The loop of the prefix adder** ends with one vector, the carries of consistent inputs. -/
theorem prefixLoop_succeeds (w fuel : Nat) {n : Nat} {ps gs : Party → List (List (Share t.bits))}
    (hps : ∀ p, IsPlanes n w (ps p)) (hgs : ∀ p, IsPlanes (n + 1) w (gs p)) (hfuel : n + 1 ≤ fuel) :
    Succeeds (fun p => (prefixLoop t fuel (ps p) (gs p) : Proc R _)) (IsCarry w ps gs) := by
  induction fuel generalizing n ps gs with
  | zero => omega
  | succ fuel ih =>
    rcases Nat.eq_zero_or_pos n with rfl | hn
    · have hprog : ∀ p, (prefixLoop t (fuel + 1) (ps p) (gs p) : Proc R _) = pure (gs p) := by
        intro p
        unfold prefixLoop
        exact if_pos (hgs p).1
      simp only [hprog]
      refine Succeeds.pure ⟨hgs, fun xss yss hx hy => ⟨yss, hy, fun j k => ?_⟩⟩
      have hy1 : (lanes j k yss).length = 1 := by
        simp only [lanes, opened, List.length_map]
        have hlen := (hgs 0).1
        rw [hy 0, List.length_map] at hlen
        exact hlen
      obtain ⟨g, hg⟩ := List.length_eq_one_iff.mp hy1
      rw [hg]
      cases lanes j k xss <;> rfl
    · have hlen : ∀ p, (ps p).length + 1 = (gs p).length := fun p => by rw [(hps p).1, (hgs p).1]
      have hone : ∀ p, 1 < (gs p).length := fun p => by rw [(hgs p).1]; omega
      have hprog := fun p => prefixLoop_step (R := R) fuel (hlen p) (hone p)
      simp only [hprog]
      have hround := fun p => isPlanes_round (hps p) (hgs p)
      refine (transposedPackAnd_succeeds (fun p => (hround p).1.map_length)
        (fun p => (hround p).2.map_length)).bind fun tmp hand => ?_
      have hop : ∀ x y : List (Share t.bits), x.length = w → y.length = w →
          (vecShareXor x y).length = w := by
        intro x y hx hy
        rw [length_vecShareXor, hx, hy, Nat.min_self]
      have hfinish := fun p => isPlanes_roundFinish hop hn (hps p) (hgs p)
        (isPlanes_of_map_length (hand.map_length p))
      exact (ih (fun p => (hfinish p).1) (fun p => (hfinish p).2) (by omega)).mono
        fun r hr => isCarry_of_round hn hps hgs hand hr

/-! ## The adder -/

/-- The most significant bit of the sum of two numbers that are given by their bits. -/
def sumMsb (a b : List Bool) : Bool :=
  (List.zipWith xor a b).getLastD false ^^
    carryAll ((List.zipWith xor a b).dropLast.drop 1) (List.zipWith and a.dropLast b.dropLast)

/-- The vectors `r` are those of the most significant bits of the sums of `a` and `b`. -/
def IsSumMsb (w : Nat) (a b : Party → List (List (Share K))) (r : Party → List (Share K)) : Prop :=
  (∀ p, (r p).length = w) ∧ ∀ xss yss, SharesPlanes a xss → SharesPlanes b yss →
    ∃ zs, Shares r zs ∧ ∀ j n, lane j n (zs.map Rep3.xor) = sumMsb (lanes j n xss) (lanes j n yss)

theorem IsPlanes.dropLast {α : Type} {n w : Nat} {l : List (List α)} (h : IsPlanes (n + 1) w l) :
    IsPlanes n w l.dropLast := by
  refine ⟨by rw [List.length_dropLast, h.1]; rfl, fun x hx => h.2 x (List.mem_of_mem_dropLast hx)⟩

theorem IsPlanes.drop_one {α : Type} {n w : Nat} {l : List (List α)} (h : IsPlanes (n + 1) w l) :
    IsPlanes n w (l.drop 1) := by
  refine ⟨by rw [List.length_drop, h.1]; rfl, fun x hx => h.2 x (List.mem_of_mem_drop hx)⟩

theorem IsPlanes.transposedPackXor {n w : Nat} {a b : List (List (Share K))} (ha : IsPlanes n w a)
    (hb : IsPlanes n w b) : IsPlanes n w (transposedPackXor a b) := by
  unfold Protocol.transposedPackXor
  refine ⟨by rw [List.length_zipWith, ha.1, hb.1, Nat.min_self], fun x hx => ?_⟩
  obtain ⟨i, hi, rfl⟩ := List.mem_iff_getElem.mp hx
  rw [List.getElem_zipWith, length_vecShareXor, ha.2 _ (List.getElem_mem _), hb.2 _ (List.getElem_mem _),
    Nat.min_self]

theorem SharesPlanes.transposedPackXor {a b : Party → List (List (Share K))} {xss yss : List (List (Rep3 K))}
    (hx : SharesPlanes a xss) (hy : SharesPlanes b yss) :
    SharesPlanes (fun p => transposedPackXor (a p) (b p))
      (List.zipWith (List.zipWith xorRep3) xss yss) := by
  intro p
  show List.zipWith vecShareXor (a p) (b p) = _
  rw [hx p, hy p]
  exact zipWith_map_of fun x _ y _ => (vecShareXor_map p x y).symm

theorem lanes_xor {n w : Nat} {xss yss : List (List (Rep3 K))} (hx : IsPlanes n w xss)
    (hy : IsPlanes n w yss) (j k : Nat) :
    lanes j k (List.zipWith (List.zipWith xorRep3) xss yss) =
      List.zipWith xor (lanes j k xss) (lanes j k yss) := by
  have hlane : ∀ (l : List (List (Rep3 K))), lanes j k l = l.map fun x => lane j k (x.map Rep3.xor) :=
    fun l => List.map_map
  rw [hlane, hlane, hlane]
  refine (zipWith_map_of fun x hx' y hy' => ?_).symm
  rw [map_xor_zipWith, lane_xor]
  rw [List.length_map, List.length_map, hx.2 x hx', hy.2 y hy']

theorem SharesPlanes.dropLast {v : Party → List (List (Share K))} {xss : List (List (Rep3 K))}
    (h : SharesPlanes v xss) : SharesPlanes (fun p => (v p).dropLast) xss.dropLast := by
  intro p
  show (v p).dropLast = _
  rw [h p, List.map_dropLast]

theorem SharesPlanes.drop {v : Party → List (List (Share K))} {xss : List (List (Rep3 K))}
    (h : SharesPlanes v xss) (n : Nat) : SharesPlanes (fun p => (v p).drop n) (xss.drop n) := by
  intro p
  show (v p).drop n = _
  rw [h p, List.map_drop]

theorem IsPlanes.length_getLastD {α : Type} {n w : Nat} {l : List (List α)} (h : IsPlanes (n + 1) w l) :
    (l.getLastD []).length = w := by
  have hne : l ≠ [] := List.ne_nil_of_length_pos (by rw [h.1]; omega)
  rw [List.getLastD_eq_getLast?, List.getLast?_eq_some_getLast hne]
  exact h.2 _ (List.getLast_mem hne)

theorem getLastD_map {α β : Type} (f : α → β) (l : List α) (d : α) :
    (l.map f).getLastD (f d) = f (l.getLastD d) := by
  rw [List.getLastD_eq_getLast?, List.getLastD_eq_getLast?, List.getLast?_map]
  cases l.getLast? <;> rfl

/-- The program after the checks of its inputs. -/
theorem binaryAdd2GetMsb_eq {n w : Nat} {a b : List (List (Share t.bits))} (ha : IsPlanes (n + 2) w a)
    (hb : IsPlanes (n + 2) w b) :
    (binaryAdd2GetMsb t a b : Proc R _) =
      (transposedPackAnd t a.dropLast b.dropLast >>= fun g =>
        prefixLoop t g.length ((transposedPackXor a b).dropLast.drop 1) g >>= fun tempG =>
          match tempG.getLast? with
          | none => Proc.lift (.bail "Should contain exactly 1 carry")
          | some carry => pure (vecShareXor ((transposedPackXor a b).getLastD []) carry)) := by
  have hxor := ha.transposedPackXor hb
  have hne : transposedPackXor a b ≠ [] := List.ne_nil_of_length_pos (by rw [hxor.1]; omega)
  have hlast : (transposedPackXor a b).getLast? = some ((transposedPackXor a b).getLastD []) := by
    rw [List.getLastD_eq_getLast?, List.getLast?_eq_some_getLast hne]
    rfl
  have hempty : ¬ (transposedPackXor a b).dropLast.isEmpty = true := by
    rw [List.isEmpty_iff_length_eq_zero, hxor.dropLast.1]
    omega
  unfold binaryAdd2GetMsb prefixAdder
  rw [if_neg (by rw [ha.1, hb.1]; exact not_not.mpr rfl)]
  refine congrArg (transposedPackAnd t a.dropLast b.dropLast >>= ·) (funext fun g => ?_)
  rw [hlast]
  exact if_neg hempty

/-- **The adder.** It returns the most significant bits of the sums, in every lane. -/
theorem binaryAdd2GetMsb_succeeds {n w : Nat} {a b : Party → List (List (Share t.bits))}
    (ha : ∀ p, IsPlanes (n + 2) w (a p)) (hb : ∀ p, IsPlanes (n + 2) w (b p)) :
    Succeeds (fun p => (binaryAdd2GetMsb t (a p) (b p) : Proc R _)) (IsSumMsb w a b) := by
  simp only [fun p => binaryAdd2GetMsb_eq (R := R) (ha p) (hb p)]
  refine (transposedPackAnd_succeeds (fun p => (ha p).dropLast.map_length)
    (fun p => (hb p).dropLast.map_length)).bind fun g hg => ?_
  have hxor := fun p => (ha p).transposedPackXor (hb p)
  have hgp : ∀ p, IsPlanes (n + 1) w (g p) := fun p => isPlanes_of_map_length (hg.map_length p)
  simp only [fun p => (hgp p).1]
  refine (prefixLoop_succeeds w (n + 1) (fun p => (hxor p).dropLast.drop_one) hgp le_rfl).bind
    fun c hc => ?_
  have hlast : ∀ p, (c p).getLast? = some ((c p).getLastD []) := by
    intro p
    obtain ⟨z, hz⟩ := List.length_eq_one_iff.mp (hc.1 p).1
    rw [hz]
    rfl
  simp only [hlast]
  refine Succeeds.pure ⟨fun p => ?_, fun xss yss hx hy => ?_⟩
  · rw [length_vecShareXor, (hxor p).length_getLastD, (hc.1 p).length_getLastD, Nat.min_self]
  · obtain ⟨gss, hsizes, hgs, hand⟩ := hg
    have hX := hx.transposedPackXor hy
    have hxp : IsPlanes (n + 2) w xss := isPlanes_of_map_length (by rw [← hx.map_length 0, (ha 0).map_length])
    have hyp : IsPlanes (n + 2) w yss := isPlanes_of_map_length (by rw [← hy.map_length 0, (hb 0).map_length])
    obtain ⟨zss, hzss, hcarry⟩ := hc.2 _ _ (hX.dropLast.drop 1) hgs
    have hXp : IsPlanes (n + 2) w (List.zipWith (List.zipWith xorRep3) xss yss) :=
      isPlanes_of_map_length (by rw [← hX.map_length 0, (hxor 0).map_length])
    have hzp : IsPlanes 1 w zss := isPlanes_of_map_length (by rw [← hzss.map_length 0, (hc.1 0).map_length])
    refine ⟨List.zipWith xorRep3 ((List.zipWith (List.zipWith xorRep3) xss yss).getLastD [])
      (zss.getLastD []), fun p => ?_, fun j k => ?_⟩
    · have hXeq : transposedPackXor (a p) (b p) = _ := hX p
      have hmap : ∀ l : List (List (Rep3 t.bits)), (l.map (List.map (Rep3.view p))).getLastD [] =
          (l.getLastD []).map (Rep3.view p) := fun l => getLastD_map _ l []
      show vecShareXor ((transposedPackXor (a p) (b p)).getLastD []) ((c p).getLastD []) = _
      rw [hXeq, hzss p, hmap, hmap, vecShareXor_map]
    · have hlast : ∀ l : List (List (Rep3 t.bits)), lane j k ((l.getLastD []).map Rep3.xor) =
          (lanes j k l).getLastD false := by
        intro l
        have hnil : lane j k (([] : List (Rep3 t.bits)).map Rep3.xor) = false := by simp [lane]
        unfold lanes opened
        rw [List.map_map, ← hnil]
        exact (getLastD_map (fun x => lane j k (x.map Rep3.xor)) l []).symm
      rw [map_xor_zipWith, lane_xor (by rw [List.length_map, List.length_map, hXp.length_getLastD,
        hzp.length_getLastD]), hlast, hlast, hcarry, lanes_and hxp.dropLast hyp.dropLast
        (hand _ _ hx.dropLast hy.dropLast)]
      have hlanes : ∀ l : List (List (Rep3 t.bits)), lanes j k (l.dropLast.drop 1) =
          (lanes j k l).dropLast.drop 1 := by
        intro l
        simp only [lanes, opened, List.map_drop, List.map_dropLast]
      have hdrop : ∀ l : List (List (Rep3 t.bits)), lanes j k l.dropLast = (lanes j k l).dropLast := by
        intro l
        simp only [lanes, opened, List.map_dropLast]
      rw [hlanes, hdrop, hdrop, lanes_xor hxp hyp]
      rfl

end Shares

/-! ## The bits of a sum -/

section SumBits

variable {K : Nat} (x y : BitVec K)

/-- The carry into the position `m + 1`. -/
theorem carryAll_range (m : Nat) :
    carryAll (((List.range (m + 1)).map fun i => x.getLsbD i ^^ y.getLsbD i).drop 1)
      ((List.range (m + 1)).map fun i => x.getLsbD i && y.getLsbD i) = BitVec.carry (m + 1) x y false := by
  have hstep : ∀ a b c : Bool, ((a && b) ^^ ((a ^^ b) && c)) = Bool.atLeastTwo a b c := by decide
  induction m with
  | zero =>
    rw [BitVec.carry_succ, ← hstep]
    simp [carryAll, carryOf, BitVec.carry_zero]
  | succ m ih =>
    rw [List.range_succ, List.map_append, List.map_append, List.map_singleton, List.map_singleton,
      List.drop_append_of_le_length (by simp), carryAll_concat (by simp), ih, BitVec.carry_succ (m + 1), hstep]

theorem sumMsb_range (m : Nat) (x y : BitVec (m + 2)) :
    sumMsb ((List.range (m + 2)).map x.getLsbD) ((List.range (m + 2)).map y.getLsbD) =
      (x + y).getLsbD (m + 1) := by
  have hxor : List.zipWith xor ((List.range (m + 2)).map x.getLsbD) ((List.range (m + 2)).map y.getLsbD) =
      (List.range (m + 1)).map (fun i => x.getLsbD i ^^ y.getLsbD i) ++
        [x.getLsbD (m + 1) ^^ y.getLsbD (m + 1)] := by
    rw [List.zipWith_map, List.zipWith_self, List.range_succ, List.map_append]
    rfl
  have hand : List.zipWith and ((List.range (m + 2)).map x.getLsbD).dropLast
      ((List.range (m + 2)).map y.getLsbD).dropLast =
      (List.range (m + 1)).map fun i => x.getLsbD i && y.getLsbD i := by
    rw [List.range_succ, List.map_append, List.map_append, List.map_singleton, List.map_singleton,
      List.dropLast_concat, List.dropLast_concat, List.zipWith_map, List.zipWith_self]
  unfold sumMsb
  rw [hxor, hand, List.dropLast_concat, carryAll_range, BitVec.getLsbD_add (by omega)]
  simp

end SumBits

end AmpcCommon.Protocol
