import AmpcCommon.Protocol.AndProduct
import AmpcCommon.Protocol.Proofs.NhdProofs
import AmpcCommon.Protocol.Proofs.ShuffleProofs

/-!
# Batches of every length, proofs

Whether the batch protocols return depends on the lengths of their inputs only, so the programs are followed by the
lengths of what the parties hold (`Sized`, `Planes`), whatever the shares are. Outside the cases in which a list is cut
into chunks of length zero, all parties return what the shape of the input promises (`Total`); in these cases a party
panics (`batch_protocols_total_iff`).
-/

namespace AmpcCommon.Protocol

variable {R α β : Type}

/-! ## Joint ends -/

/-- From streams in lockstep the parties all end, and their outcomes meet `Q`. -/
def Ends (x : Party → Proc R α) (Q : (Party → Outcome α) → Prop) : Prop :=
  ∀ σ, Lockstep σ → ∃ o σ', Joint x σ o σ' ∧ Q o

namespace Ends

variable {x : Party → Proc R α} {Q S : (Party → Outcome α) → Prop}

theorem lift {o : Party → Outcome α} (h : Q o) : Ends (fun p => (Proc.lift (o p) : Proc R α)) Q :=
  fun σ _ => ⟨o, σ, Network.Completes.pure _, h⟩

theorem of_succeeds {P : (Party → α) → Prop} (h : Succeeds x P) (hP : ∀ r, P r → Q fun p => .ok (r p)) : Ends x Q := by
  intro σ hσ
  obtain ⟨r, σ', hjoint, -, hr⟩ := h σ hσ
  exact ⟨_, σ', hjoint, hP r hr⟩

theorem bind {y : Party → Proc R β} {P : (Party → β) → Prop} (h : Succeeds y P) {f : Party → β → Proc R α}
    (hf : ∀ r, P r → Ends (fun p => f p (r p)) Q) : Ends (fun p => y p >>= f p) Q := by
  intro σ hσ
  obtain ⟨r, σ₁, hjoint, hσ₁, hr⟩ := h σ hσ
  obtain ⟨o, σ', hjoint', ho⟩ := hf r hr σ₁ hσ₁
  exact ⟨o, σ', hjoint.bind hjoint', ho⟩

theorem settles (h : Ends x Q) {σ : Party → Prf R} (hσ : Lockstep σ) :
    Network.Settles nextParty (fun p => x p (σ p)) fun o => Q fun p => (o p).1 := by
  obtain ⟨o, σ', hjoint, ho⟩ := h σ hσ
  exact hjoint.settles ho

/-- Parties that end otherwise do not settle on `S`. -/
theorem not_settles (h : Ends x Q) (hQ : ∀ o, Q o → ¬ S o) {σ : Party → Prf R} (hσ : Lockstep σ) :
    ¬ Network.Settles nextParty (fun p => x p (σ p)) fun o => S fun p => (o p).1 := by
  obtain ⟨o, σ', hjoint, ho⟩ := h σ hσ
  intro hS
  exact hQ o ho ((Network.Completes.settles_iff hjoint).mp hS)

end Ends

/-- For a valid shape all parties return results of the shape they promise, for any other shape all of them return
an error. -/
def Total (valid : Prop) (shape : (Party → α) → Prop) (o : Party → Outcome α) : Prop :=
  (valid → ∃ r, (∀ p, o p = .ok (r p)) ∧ shape r) ∧ (¬ valid → ∀ p, ∃ m, o p = .bail m)

theorem not_total_of_panic {valid : Prop} {shape : (Party → α) → Prop} {o : Party → Outcome α} {p : Party} {m : String}
    (h : o p = .panicked m) : ¬ Total valid shape o := by
  rintro ⟨hvalid, hinvalid⟩
  by_cases hv : valid
  · obtain ⟨r, hr, -⟩ := hvalid hv
    cases h.symm.trans (hr p)
  · obtain ⟨m', hm⟩ := hinvalid hv p
    cases h.symm.trans hm

theorem Total.returns {valid : Prop} {shape : (Party → α) → Prop} {o : Party → Outcome α} (h : Total valid shape o)
    (p : Party) : (o p).Returns := by
  by_cases hv : valid
  · obtain ⟨r, hr, -⟩ := h.1 hv
    rw [hr p]
    trivial
  · obtain ⟨m, hm⟩ := h.2 hv p
    rw [hm]
    trivial

/-- Whatever the order of the steps is, no party panics, and at the end every party has returned, or it waits for a
message until its session times out. In the `regular` cases all parties return, as the shape of the input promises. -/
def IsTotal (regular valid : Prop) (shape : (Party → α) → Prop) (x : Party → Proc R α) (σ : Party → Prf R) : Prop :=
  (Network.Answers nextParty (fun p => x p (σ p)) fun o => o.1.Returns) ∧
    (regular → Network.Settles nextParty (fun p => x p (σ p)) fun o => Total valid shape fun p => (o p).1)

theorem isTotal_of_ends {regular valid : Prop} {shape : (Party → α) → Prop} {x : Party → Proc R α}
    (h : Ends x (Total valid shape)) {σ : Party → Prf R} (hσ : Lockstep σ) : IsTotal regular valid shape x σ :=
  ⟨(h.settles hσ).answers fun _ hr p => hr.returns p, fun _ => h.settles hσ⟩

/-- A program that ends well under a condition, and panics without it. -/
theorem isTotal_iff {x : Party → Proc R α} {valid : Prop} (extra : Prop) {shape : (Party → α) → Prop}
    (hgood : (valid → extra) → Ends x (Total valid shape))
    (hbad : valid → ¬ extra → Ends x fun o => ∀ p, ∃ m, o p = .panicked m) {σ : Party → Prf R} (hσ : Lockstep σ) :
    IsTotal True valid shape x σ ↔ (valid → extra) := by
  constructor
  · intro h hvalid
    by_contra hextra
    refine (hbad hvalid hextra).not_settles (fun o ho => ?_) hσ (h.2 trivial)
    obtain ⟨m, hm⟩ := ho 0
    exact not_total_of_panic hm
  · intro h
    exact isTotal_of_ends (hgood h) hσ

theorem total_of_valid {x : Party → Proc R α} {valid : Prop} {shape : (Party → α) → Prop} (hvalid : valid)
    (h : Succeeds x shape) : Ends x (Total valid shape) :=
  .of_succeeds h fun r hr => ⟨fun _ => ⟨r, fun _ => rfl, hr⟩, fun hnot => absurd hvalid hnot⟩

theorem total_of_invalid {valid : Prop} {shape : (Party → α) → Prop} (hvalid : ¬ valid) {o : Party → Outcome α}
    (ho : ∀ p, ∃ m, o p = .bail m) : Total valid shape o := ⟨fun h => absurd h hvalid, fun _ => ho⟩

/-! ## Lengths -/

/-- The lists of all parties have the length `n`. -/
def Sized (n : Nat) (v : Party → List α) : Prop := ∀ p, (v p).length = n

section Lengths

variable [Rng R] {n : Nat}

theorem reshareProducts_sized (t : RingTy) (n : Nat) (expr : Party → Nat → BitVec t.bits) :
    Succeeds (fun p => (reshareProducts t n (expr p) : Proc R _)) (Sized n) :=
  (reshareProducts_succeeds n expr).mono fun _ hr => hr.length

theorem extractMsbBatch_sized (t : RingTy) (sid : BitVec 32) {v : Party → List (Share t.bits)} (hv : Sized n v) :
    Succeeds (fun p => (extractMsbBatch t ⟨p, sid⟩ (v p) : Proc R _)) (Sized n) :=
  (extractMsbBatch_succeeds sid hv).mono fun _ hr => hr.1

theorem bitInject_sized (t : RingTy) (sid : BitVec 32) {v : Party → List (Share 1)} (hv : Sized n v) :
    Succeeds (fun p => (bitInject t ⟨p, sid⟩ (v p) : Proc R _)) (Sized n) :=
  (bitInject_succeeds sid hv).mono fun _ hr => hr.1

theorem length_tuples2 {K : Nat} : ∀ (l : List (Share K)) {n : Nat}, l.length = n * 2 → (tuples2 l).length = n
  | [], n, h => by
    simp only [List.length_nil] at h
    simp only [tuples2, List.length_nil]
    omega
  | [_], n, h => by
    simp only [List.length_cons, List.length_nil] at h
    omega
  | x :: y :: l, n, h => by
    simp only [List.length_cons] at h
    rw [tuples2, List.length_cons, length_tuples2 l (n := n - 1) (by omega)]
    omega

theorem conditionallySelectDistance_sized (t : RingTy) {v : Party → List (DistancePair t.bits)} (hv : Sized n v)
    {controlBits : Party → List (Share t.bits)} (hbits : Sized n controlBits) :
    Succeeds (fun p => (conditionallySelectDistance t (v p) (controlBits p) : Proc R _)) (Sized n) := by
  have hn : ∀ p, (v p).length = n ∧ (controlBits p).length = n := fun p => ⟨hv p, hbits p⟩
  simp only [conditionallySelectDistance, hn, ne_eq, not_true_eq_false, if_false]
  refine (reshareMux_succeeds (by decide) (fun p => (hbits p).ge) _).bind fun products hr => Succeeds.pure fun p => ?_
  exact length_tuples2 _ (hr.length p)

theorem minOfPairBatch_sized (sid : BitVec 32) {v : Party → List (DistancePair 32)} (hv : Sized n v) :
    Succeeds (fun p => (minOfPairBatch ⟨p, sid⟩ (v p) : Proc R _)) (Sized n) := by
  have hcross : Succeeds (fun p => (crossMul (v p) : Proc R _)) (Sized n) := by
    have hn : ∀ p, (v p).length = n := hv
    simp only [crossMul, hn]
    exact reshareProducts_sized .u32 n _
  have hcompare : Succeeds (fun p => (obliviousCrossCompare ⟨p, sid⟩ (v p) : Proc R _)) (Sized n) :=
    hcross.bind fun _ hdiff => extractMsbBatch_sized .u32 sid hdiff
  have hlifted : Succeeds (fun p => (obliviousCrossCompareLifted ⟨p, sid⟩ (v p) : Proc R _)) (Sized n) :=
    hcompare.bind fun _ hbits => bitInject_sized .u32 sid hbits
  exact hlifted.bind fun _ hbits => conditionallySelectDistance_sized .u32 hv hbits

theorem nhdMinOfPairBatch_sized (sid : BitVec 32) {v : Party → List (DistancePair 48)} (hv : Sized n v) :
    Succeeds (fun p => (nhdMinOfPairBatch ⟨p, sid⟩ (v p) : Proc R _)) (Sized n) := by
  have hcross : Succeeds (fun p => (nhdCrossMul (v p) : Proc R _)) (Sized n) := by
    have hn : ∀ p, (v p).length = n := hv
    simp only [nhdCrossMul, hn]
    exact (reshareProducts_sized .ring48 (2 * n) _).bind fun _ _ => reshareProducts_sized .ring48 n _
  have hcompare : Succeeds (fun p => (nhdObliviousCrossCompare ⟨p, sid⟩ (v p) : Proc R _)) (Sized n) :=
    hcross.bind fun _ hdiff => extractMsbBatch_sized .ring48 sid hdiff
  have hlifted : Succeeds (fun p => (nhdObliviousCrossCompareLifted ⟨p, sid⟩ (v p) : Proc R _)) (Sized n) :=
    hcompare.bind fun _ hbits => bitInject_sized .ring48 sid hbits
  exact hlifted.bind fun _ hbits => conditionallySelectDistance_sized .ring48 hv hbits

end Lengths

/-! ## Reduction of groups -/

section Reduce

variable {K : Nat} {groups : List Nat}

/-- The groups of all parties have the given lengths. -/
def Grouped (groups : List Nat) (v : Party → List (List α)) : Prop := ∀ p, (v p).map List.length = groups

theorem firstDistances_ok {l : List (List (DistanceShare K))} (h : ∀ n ∈ l.map List.length, 0 < n) :
    ∃ ds, firstDistances l = .ok ds ∧ ds.length = l.length := by
  induction l with
  | nil => exact ⟨[], rfl, rfl⟩
  | cons group l ih =>
    obtain ⟨ds, hds, hlen⟩ := ih fun n hn => h n (List.mem_cons_of_mem _ hn)
    obtain ⟨d, rest, rfl⟩ := List.exists_cons_of_length_pos (h group.length List.mem_cons_self)
    refine ⟨d :: ds, ?_, congrArg Nat.succ hlen⟩
    show (firstDistances l >>= fun ds => pure (d :: ds)) = _
    rw [hds]
    rfl

theorem firstDistances_bail {l : List (List (DistanceShare K))} (h : ¬ ∀ n ∈ l.map List.length, 0 < n) :
    firstDistances l = .bail "Expected at least one distance in the group" := by
  induction l with
  | nil => simp at h
  | cons group l ih =>
    cases group with
    | nil => rfl
    | cons d group =>
      have hrest : ¬ ∀ n ∈ l.map List.length, 0 < n := by
        intro hall
        refine h fun n hn => ?_
        rcases List.mem_cons.mp hn with rfl | hn
        · exact Nat.succ_pos _
        · exact hall n hn
      show (firstDistances l >>= fun ds => pure (d :: ds)) = _
      rw [ih hrest]
      rfl

theorem distancesToReduce_ok {l : List (List (DistanceShare K))} {sizes : List Nat} {reduced : List (DistanceShare K)}
    (hsizes : List.Forall₂ (· < ·) sizes (l.map List.length)) (hreduced : reduced.length = l.length) :
    ∃ pairs, distancesToReduce l sizes reduced = .ok pairs ∧ pairs.length = l.length := by
  induction l generalizing sizes reduced with
  | nil =>
    cases hsizes
    exact ⟨[], rfl, rfl⟩
  | cons group l ih =>
    cases hsizes with
    | @cons size _ sizes _ hsize hsizes =>
      obtain ⟨d, reduced, rfl⟩ := List.exists_cons_of_length_eq_add_one hreduced
      obtain ⟨pairs, hpairs, hlen⟩ := ih hsizes (Nat.succ.inj hreduced)
      refine ⟨(group[size], d) :: pairs, ?_, congrArg Nat.succ hlen⟩
      simp only [distancesToReduce, List.getElem?_eq_getElem hsize, hpairs]
      rfl

variable {minOfPair : Party → List (DistancePair K) → Proc R (List (DistanceShare K))}
  (hmin : ∀ n (v : Party → List (DistancePair K)), Sized n v → Succeeds (fun p => minOfPair p (v p)) (Sized n))
include hmin

/-- The loop, by induction on the fuel: the sizes of the groups get smaller until all are zero. -/
theorem reduceLoop_sized {v : Party → List (List (DistanceShare K))} (hv : Grouped groups v) (fuel : Nat)
    {sizes : List Nat} (hsizes : List.Forall₂ (· < ·) sizes groups) (hfuel : ∀ n ∈ sizes, n < fuel) (hpos : 0 < fuel)
    {w : Party → List (DistanceShare K)} (hw : Sized groups.length w) :
    Succeeds (fun p => reduceLoop (minOfPair p) (v p) fuel sizes (w p)) (Sized groups.length) := by
  induction fuel generalizing sizes w with
  | zero => omega
  | succ fuel ih =>
    simp only [reduceLoop]
    by_cases hdone : sizes.all (· == 0) = true
    · simp only [if_pos hdone]
      exact Succeeds.pure hw
    · simp only [if_neg hdone]
      have hcount : ∀ p, (v p).length = groups.length := by
        intro p
        rw [← hv p, List.length_map]
      have hpairs : ∀ p, ∃ pairs, distancesToReduce (v p) sizes (w p) = .ok pairs ∧ pairs.length = groups.length := by
        intro p
        obtain ⟨pairs, hpairs, hlen⟩ := distancesToReduce_ok (l := v p) ((hv p).symm ▸ hsizes)
          ((hw p).trans (hcount p).symm)
        exact ⟨pairs, hpairs, hlen.trans (hcount p)⟩
      choose pairs hok hlen using hpairs
      refine Succeeds.lift_bind hok ((hmin groups.length pairs hlen).bind fun r hr => ih ?_ ?_ ?_ hr)
      · rw [List.forall₂_map_left_iff]
        exact hsizes.imp fun a b hab => by omega
      · intro n hn
        obtain ⟨m, hm, rfl⟩ := List.mem_map.mp hn
        have := hfuel m hm
        by_cases hzero : m = 0
        · subst hzero
          obtain ⟨k, hk, hne⟩ : ∃ k ∈ sizes, k ≠ 0 := by simpa using hdone
          have := hfuel k hk
          omega
        · omega
      · obtain ⟨k, hk, hne⟩ : ∃ k ∈ sizes, k ≠ 0 := by simpa using hdone
        have := hfuel k hk
        omega

/-- Groups that are not empty are reduced to one distance each. -/
theorem reduceToMinWith_sized {v : Party → List (List (DistanceShare K))} (hv : Grouped groups v)
    (hne : ∀ n ∈ groups, 0 < n) :
    Succeeds (fun p => reduceToMinWith (minOfPair p) (v p)) (Sized groups.length) := by
  have hsizes : ∀ p, (v p).map (fun group => group.length - 1) = groups.map (· - 1) := by
    intro p
    rw [← hv p, List.map_map]
    rfl
  have hfirst : ∀ p, ∃ ds, firstDistances (v p) = .ok ds ∧ ds.length = groups.length := by
    intro p
    obtain ⟨ds, hds, hlen⟩ := firstDistances_ok (l := v p) ((hv p).symm ▸ hne)
    refine ⟨ds, hds, hlen.trans ?_⟩
    rw [← hv p, List.length_map]
  choose ds hok hlen using hfirst
  simp only [reduceToMinWith]
  refine Succeeds.lift_bind hok ?_
  simp only [hsizes]
  refine reduceLoop_sized hmin hv _ ?_ (fun n hn => ?_) (Nat.succ_pos _) hlen
  · rw [List.forall₂_map_left_iff, List.forall₂_same]
    exact fun n hn => Nat.sub_lt (hne n hn) Nat.one_pos
  · exact Nat.lt_succ_of_le ((le_foldl_max _ 0).2 n hn)

omit hmin in
/-- An empty group is an error. -/
theorem reduceToMinWith_ends {β : Type} {v : Party → List (List (DistanceShare K))} (hv : Grouped groups v)
    (hne : ¬ ∀ n ∈ groups, 0 < n) {f : Party → List (DistanceShare K) → Proc R β} :
    Ends (fun p => reduceToMinWith (minOfPair p) (v p) >>= f p) fun o => ∀ p, ∃ m, o p = .bail m := by
  have hprog : ∀ p, (reduceToMinWith (minOfPair p) (v p) >>= f p) =
      Proc.lift (.bail "Expected at least one distance in the group") := by
    intro p
    have hbail := firstDistances_bail (l := v p) ((hv p).symm ▸ hne)
    unfold reduceToMinWith
    rw [hbail]
    rfl
  simp only [hprog]
  exact Ends.lift fun p => ⟨_, rfl⟩

end Reduce

/-! ## Buckets -/

section Buckets

variable {n k : Nat}

/-- One bucket for every threshold. Without distances all buckets are zero. -/
def BucketsShape (k n : Nat) (r : Party → List (Share 32)) : Prop :=
  Sized k r ∧ (n = 0 → SharesOf r (List.replicate k 0))

theorem sumChunks_ok (hn : 0 < n) {sums : List (Share 32)} (h : sums.length = k * n) :
    ∃ buckets, sumChunks n sums = .ok buckets ∧ buckets.length = k := by
  refine ⟨_, if_neg hn.ne', ?_⟩
  have hlengths := congrArg List.length (map_length_chunks hn h)
  rw [List.length_map, List.length_replicate] at hlengths
  rw [List.length_map, hlengths]

/-- The sums of chunks whose size is the number of distances. -/
theorem sumChunks_succeeds (hn : 0 < n) {x : Party → Proc R (List (Share 32))} (h : Succeeds x (Sized (k * n))) :
    Succeeds (fun p => x p >>= fun sums => Proc.lift (sumChunks n sums)) (BucketsShape k n) := by
  refine h.bind fun sums hsums => ?_
  choose buckets hok hlen using fun p => sumChunks_ok hn (hsums p)
  exact Succeeds.lift hok ⟨hlen, fun hzero => absurd hzero hn.ne'⟩

theorem sumChunks_ends {P : (Party → List (Share 32)) → Prop} {x : Party → Proc R (List (Share 32))}
    (h : Succeeds x P) :
    Ends (fun p => x p >>= fun sums => Proc.lift (sumChunks 0 sums)) fun o => ∀ p, ∃ m, o p = .panicked m :=
  .bind h fun _ _ => Ends.lift fun _ => ⟨_, rfl⟩

variable [Rng R]

theorem compareAgainstThresholdsBatched_sized (sid : BitVec 32) (thresholds : List (BitVec 32))
    {v : Party → List (DistanceShare 32)} (hv : Sized n v) :
    Succeeds (fun p => (compareAgainstThresholdsBatched ⟨p, sid⟩ thresholds (v p) : Proc R _))
      (Sized (thresholds.length * n)) := by
  have hdiffs : Sized (thresholds.length * n) fun p => thresholdDiffs thresholds (v p) := by
    intro p
    show (thresholds.flatMap fun a => (v p).map _).length = _
    simp [List.length_flatMap, hv p]
  exact (extractMsbBatch_sized .u32 sid hdiffs).bind fun _ hbits => bitInject_sized .u32 sid hbits

theorem nhdGreaterThanThreshold_sized (sid : BitVec 32) (threshold : Nat) {v : Party → List (DistanceShare 48)}
    (hv : Sized n v) :
    Succeeds (fun p => (nhdGreaterThanThreshold ⟨p, sid⟩ (v p) threshold : Proc R _)) (Sized n) := by
  have hn : ∀ p, (v p).length = n := hv
  simp only [nhdGreaterThanThreshold, hn]
  refine (reshareProducts_sized .ring48 n _).bind fun products hproducts =>
    extractMsbBatch_sized .ring48 sid fun p => ?_
  exact List.length_zipWith.trans ((congrArg₂ min (hproducts p) (hv p)).trans (Nat.min_self n))

/-- The loop over the thresholds. -/
theorem nhdThresholdLoop_sized (sid : BitVec 32) (thresholds : List Nat) {v : Party → List (DistanceShare 48)}
    (hv : Sized n v) {m : Nat} {msbs : Party → List (Share 1)} (hmsbs : Sized m msbs) :
    Succeeds (fun p => (nhdThresholdLoop ⟨p, sid⟩ (v p) thresholds (msbs p) : Proc R _))
      (Sized (m + thresholds.length * n)) := by
  induction thresholds generalizing m msbs with
  | nil =>
    refine Succeeds.pure fun p => ?_
    rw [hmsbs p, List.length_nil, Nat.zero_mul, Nat.add_zero]
  | cons t thresholds ih =>
    refine (nhdGreaterThanThreshold_sized sid t hv).bind fun results hresults => ?_
    have hnext : Sized (m + n) fun p => msbs p ++ (results p).map Share.not := by
      intro p
      rw [List.length_append, List.length_map, hmsbs p, hresults p]
    have hsize : m + (t :: thresholds).length * n = m + n + thresholds.length * n := by
      rw [List.length_cons]
      ring
    rw [hsize]
    exact ih hnext

theorem nhdCompareAgainstThresholdsBatched_sized (sid : BitVec 32) (thresholds : List Nat)
    {v : Party → List (DistanceShare 48)} (hv : Sized n v) :
    Succeeds (fun p => (nhdCompareAgainstThresholdsBatched ⟨p, sid⟩ thresholds (v p) : Proc R _))
      (Sized (thresholds.length * n)) := by
  refine (nhdThresholdLoop_sized sid thresholds hv (m := 0) fun p => rfl).bind fun msbs hmsbs => ?_
  rw [Nat.zero_add] at hmsbs
  exact bitInject_sized .u32 sid hmsbs

/-- The buckets of a list of distances. -/
theorem compareThresholdBuckets_succeeds_of_pos (sid : BitVec 32) (thresholds : List (BitVec 32))
    {v : Party → List (DistanceShare 32)} (hv : Sized n v) (hn : 0 < n) :
    Succeeds (fun p => (compareThresholdBuckets ⟨p, sid⟩ thresholds (v p) : Proc R _))
      (BucketsShape thresholds.length n) := by
  have hlen : ∀ p, (v p).length = n := hv
  simp only [compareThresholdBuckets, hlen]
  exact sumChunks_succeeds hn (compareAgainstThresholdsBatched_sized sid thresholds hv)

theorem compareThresholdBuckets_panics (sid : BitVec 32) (thresholds : List (BitVec 32))
    {v : Party → List (DistanceShare 32)} (hv : Sized 0 v) :
    Ends (fun p => (compareThresholdBuckets ⟨p, sid⟩ thresholds (v p) : Proc R _)) fun o =>
      ∀ p, ∃ m, o p = .panicked m := by
  have hlen : ∀ p, (v p).length = 0 := hv
  simp only [compareThresholdBuckets, hlen]
  exact sumChunks_ends (compareAgainstThresholdsBatched_sized sid thresholds hv)

theorem nhdCompareThresholdBuckets_succeeds_of_pos (sid : BitVec 32) (thresholds : List Nat)
    {v : Party → List (DistanceShare 48)} (hv : Sized n v) (hn : 0 < n) :
    Succeeds (fun p => (nhdCompareThresholdBuckets ⟨p, sid⟩ thresholds (v p) : Proc R _))
      (BucketsShape thresholds.length n) := by
  have hlen : ∀ p, (v p).length = n := hv
  simp only [nhdCompareThresholdBuckets, hlen]
  exact sumChunks_succeeds hn (nhdCompareAgainstThresholdsBatched_sized sid thresholds hv)

theorem nhdCompareThresholdBuckets_panics (sid : BitVec 32) (thresholds : List Nat)
    {v : Party → List (DistanceShare 48)} (hv : Sized 0 v) :
    Ends (fun p => (nhdCompareThresholdBuckets ⟨p, sid⟩ thresholds (v p) : Proc R _)) fun o =>
      ∀ p, ∃ m, o p = .panicked m := by
  have hlen : ∀ p, (v p).length = 0 := hv
  simp only [nhdCompareThresholdBuckets, hlen]
  exact sumChunks_ends (nhdCompareAgainstThresholdsBatched_sized sid thresholds hv)

end Buckets

/-! ## Products of bit vectors -/

section Product

variable [Rng R] {len : Nat}

theorem length_pack (K : Nat) (shares : List (Share 1)) : (pack K shares).length = (shares.length + K - 1) / K := by
  rw [pack, List.length_map, chunks, List.length_map, List.length_range]

theorem length_flatten_planes {k : Nat} {l : List (List α)} (h : IsPlanes k len l) : l.flatten.length = k * len :=
  length_flatten_of_shape h.map_length

theorem IsPlanes.take {k m : Nat} {l : List (List α)} (h : IsPlanes k len l) (hm : m ≤ k) : IsPlanes m len (l.take m) :=
  ⟨by rw [List.length_take, h.1, Nat.min_eq_left hm], fun x hx => h.2 x (List.mem_of_mem_take hx)⟩

theorem IsPlanes.drop {k m : Nat} {l : List (List α)} (h : IsPlanes k len l) : IsPlanes (k - m) len (l.drop m) :=
  ⟨by rw [List.length_drop, h.1], fun x hx => h.2 x (List.mem_of_mem_drop hx)⟩

theorem IsPlanes.append {k m : Nat} {l l' : List (List α)} (h : IsPlanes k len l) (h' : IsPlanes m len l') :
    IsPlanes (k + m) len (l ++ l') := by
  refine ⟨by rw [List.length_append, h.1, h'.1], fun x hx => ?_⟩
  rcases List.mem_append.mp hx with hx | hx
  · exact h.2 x hx
  · exact h'.2 x hx

/-- The list of vectors of a round, without the last one of an odd list. -/
def evenColumns (l : List (List α)) : List (List α) := if l.length % 2 = 1 then l.dropLast else l

/-- The last column of an odd list. -/
def lastColumn (l : List (List α)) : List (List α) := if l.length % 2 = 1 then l.getLast?.toList else []

theorem isPlanes_evenColumns {k : Nat} {l : List (List α)} (h : IsPlanes k len l) :
    IsPlanes (2 * (k / 2)) len (evenColumns l) := by
  unfold evenColumns
  by_cases hodd : l.length % 2 = 1
  · rw [if_pos hodd, List.dropLast_eq_take, h.1]
    have heven : k - 1 = 2 * (k / 2) := by
      have := h.1
      omega
    rw [heven]
    exact h.take (by omega)
  · rw [if_neg hodd]
    have heven : 2 * (k / 2) = k := by
      have := h.1
      omega
    rwa [heven]

theorem isPlanes_lastColumn {k : Nat} {l : List (List α)} (h : IsPlanes k len l) :
    IsPlanes (k % 2) len (lastColumn l) := by
  unfold lastColumn
  by_cases hodd : l.length % 2 = 1
  · have hk : k % 2 = 1 := h.1 ▸ hodd
    have hne : l ≠ [] := by
      rintro rfl
      cases hodd
    rw [if_pos hodd, hk, List.getLast?_eq_some_getLast hne]
    exact ⟨rfl, fun x hx => h.2 x (List.mem_singleton.mp hx ▸ List.getLast_mem hne)⟩
  · have hk : k % 2 = 0 := by
      have := h.1
      omega
    rw [if_neg hodd, hk]
    exact ⟨rfl, by simp⟩

/-- The AND of the two halves of a list of vectors. -/
def andHalves (l : List (List (Share 1))) : Proc R (List (Share 64)) :=
  andMany .u64 (pack 64 (l.take (l.length / 2)).flatten) (pack 64 (l.drop (l.length / 2)).flatten)

theorem andProductLoop_succ (len fuel : Nat) (res : List (List (Share 1))) (h : ¬ res.length ≤ 1) :
    (andProductLoop len (fuel + 1) res : Proc R _) = andHalves (evenColumns res) >>= fun andBits =>
      if len = 0 then Proc.lift (.panicked "chunk size must be non-zero")
      else andProductLoop len fuel
        (chunks len ((convertToBits andBits).take ((evenColumns res).length / 2 * len)) ++ lastColumn res) := by
  rw [andProductLoop, if_neg h]
  rfl

theorem andHalves_sized {half : Nat} {v : Party → List (List (Share 1))} (hv : ∀ p, IsPlanes (2 * half) len (v p)) :
    Succeeds (fun p => (andHalves (v p) : Proc R _)) (Sized ((half * len + 63) / 64)) := by
  have hcount : ∀ p, (v p).length / 2 = half := by
    intro p
    rw [(hv p).1]
    omega
  have hleft : ∀ p, (pack 64 ((v p).take half).flatten).length = (half * len + 63) / 64 := by
    intro p
    rw [length_pack, length_flatten_planes ((hv p).take (by omega))]
    rfl
  have hright : ∀ p, (pack 64 ((v p).drop half).flatten).length = (half * len + 63) / 64 := by
    intro p
    rw [length_pack, length_flatten_planes (hv p).drop, two_mul, Nat.add_sub_cancel]
    rfl
  simp only [andHalves, hcount]
  exact (andMany_succeeds hleft hright).mono fun _ hr => hr.length

/-- The loop, by induction on the fuel: every round halves the number of vectors. -/
theorem andProductLoop_succeeds (hlen : 0 < len) (fuel : Nat) {k : Nat} (hk : 0 < k) (hfuel : k ≤ fuel)
    {v : Party → List (List (Share 1))} (hv : ∀ p, IsPlanes k len (v p)) :
    Succeeds (fun p => (andProductLoop len fuel (v p) : Proc R _)) fun r => ∀ p, IsPlanes 1 len (r p) := by
  induction fuel generalizing k v with
  | zero => omega
  | succ fuel ih =>
    by_cases hone : k ≤ 1
    · obtain rfl : k = 1 := by omega
      have hdone : ∀ p, (v p).length ≤ 1 := fun p => (hv p).1.le
      simp only [andProductLoop, if_pos (hdone _)]
      exact Succeeds.pure hv
    · have hmore : ∀ p, ¬ (v p).length ≤ 1 := by
        intro p
        rwa [(hv p).1]
      simp only [fun p => andProductLoop_succ (R := R) len fuel (v p) (hmore p), if_neg hlen.ne']
      have heven : ∀ p, IsPlanes (2 * (k / 2)) len (evenColumns (v p)) := fun p => isPlanes_evenColumns (hv p)
      refine (andHalves_sized heven).bind fun andBits hbits => ih (k := k / 2 + k % 2) (by omega) (by omega) fun p => ?_
      have hhalf : (evenColumns (v p)).length / 2 = k / 2 := by
        rw [(heven p).1]
        omega
      have htaken : ((convertToBits (andBits p)).take (k / 2 * len)).length = k / 2 * len := by
        rw [List.length_take, length_convertToBits, hbits p]
        omega
      rw [hhalf]
      exact (isPlanes_of_map_length (map_length_chunks hlen htaken)).append (isPlanes_lastColumn (hv p))

variable {shape : List Nat} {v : Party → List (List (Share 1))}

/-- Vectors that all have the given length, and at least one of them. -/
def ValidProduct (len : Nat) (shape : List Nat) : Prop := shape ≠ [] ∧ ∀ n ∈ shape, n = len

theorem andProduct_bails (hv : Grouped shape v) (hshape : ¬ ValidProduct len shape) :
    Ends (fun p => (andProduct (v p) len : Proc R _)) fun o => ∀ p, ∃ m, o p = .bail m := by
  have hprog : ∀ p, ∃ m, (andProduct (v p) len : Proc R _) = Proc.lift (.bail m) := by
    intro p
    unfold andProduct
    by_cases hempty : (v p).isEmpty = true
    · rw [if_pos hempty]
      exact ⟨_, rfl⟩
    · have hlengths : ((v p).any fun vecShare => vecShare.length != len) = true := by
        by_contra hnone
        refine hshape ⟨?_, ?_⟩
        · rw [← hv p]
          simpa using hempty
        · rw [← hv p]
          simpa using hnone
      rw [if_neg hempty, if_pos hlengths]
      exact ⟨_, rfl⟩
  choose m hm using hprog
  simp only [hm]
  exact Ends.lift fun p => ⟨_, rfl⟩

theorem isPlanes_of_valid (hv : Grouped shape v) (hshape : ValidProduct len shape) (p : Party) :
    IsPlanes shape.length len (v p) := by
  rw [← hv p, List.length_map]
  refine ⟨rfl, fun x hx => hshape.2 _ ?_⟩
  rw [← hv p]
  exact List.mem_map_of_mem hx

theorem andProduct_eq (hv : Grouped shape v) (hshape : ValidProduct len shape) (p : Party) :
    (andProduct (v p) len : Proc R _) = andProductLoop len shape.length (v p) >>= fun res =>
      match res.getLast? with
      | some product => pure product
      | none => Proc.lift (.bail "Not enough elements") := by
  obtain ⟨hcount, hlengths⟩ := isPlanes_of_valid hv hshape p
  have hempty : ¬ (v p).isEmpty = true := by
    rw [List.isEmpty_iff_length_eq_zero, hcount]
    exact fun hzero => hshape.1 (List.length_eq_zero_iff.mp hzero)
  have hsame : ¬ ((v p).any fun vecShare => vecShare.length != len) = true := by
    simpa using hlengths
  rw [← hcount, andProduct, if_neg hempty]
  exact if_neg hsame

theorem andProduct_succeeds (hv : Grouped shape v) (hshape : ValidProduct len shape)
    (hextra : shape.length = 1 ∨ 0 < len) :
    Succeeds (fun p => (andProduct (v p) len : Proc R _)) (Sized len) := by
  have hplanes := isPlanes_of_valid hv hshape
  have hpos : 0 < shape.length := List.length_pos_of_ne_nil hshape.1
  have hloop : Succeeds (fun p => (andProductLoop len shape.length (v p) : Proc R _)) fun r =>
      ∀ p, IsPlanes 1 len (r p) := by
    rcases hextra with hone | hlen
    · rw [hone] at hplanes ⊢
      have hdone : ∀ p, (v p).length ≤ 1 := fun p => (hplanes p).1.le
      simp only [andProductLoop, if_pos (hdone _)]
      exact Succeeds.pure hplanes
    · exact andProductLoop_succeeds hlen _ hpos le_rfl hplanes
  simp only [andProduct_eq hv hshape]
  refine hloop.bind fun r hr => ?_
  have hlast : ∀ p, ∃ product, r p = [product] ∧ product.length = len := by
    intro p
    obtain ⟨product, hproduct⟩ := List.length_eq_one_iff.mp (hr p).1
    exact ⟨product, hproduct, (hr p).2 _ (hproduct ▸ List.mem_singleton_self _)⟩
  choose product hproduct hlength using hlast
  simp only [hproduct, List.getLast?_singleton]
  exact Succeeds.pure hlength

/-- Two or more vectors of length zero: the AND is cut into chunks of length zero. -/
theorem andProduct_panics (hv : Grouped shape v) (hshape : ValidProduct 0 shape) (hcount : shape.length ≠ 1) :
    Ends (fun p => (andProduct (v p) 0 : Proc R _)) fun o => ∀ p, ∃ m, o p = .panicked m := by
  have hplanes := isPlanes_of_valid hv hshape
  have hpos : 0 < shape.length := List.length_pos_of_ne_nil hshape.1
  obtain ⟨fuel, hfuel⟩ := Nat.exists_eq_add_one_of_ne_zero hpos.ne'
  have hmore : ∀ p, ¬ (v p).length ≤ 1 := by
    intro p
    rw [(hplanes p).1]
    omega
  have hprog : ∀ p, (andProduct (v p) 0 : Proc R _) = andHalves (evenColumns (v p)) >>= fun _ =>
      Proc.lift (.panicked "chunk size must be non-zero") := by
    intro p
    rw [andProduct_eq hv hshape, hfuel, andProductLoop_succ _ _ _ (hmore p), bind_assoc]
    rfl
  simp only [hprog]
  exact .bind (andHalves_sized fun p => isPlanes_evenColumns (hplanes p)) fun _ _ => Ends.lift fun _ => ⟨_, rfl⟩

end Product

/-! ## Parties that end whatever they receive -/

section Guarded

/-- The call returned, and a value it returned meets `P`. -/
def ReturnsWith (P : α → Prop) (o : Outcome α) : Prop := o.Returns ∧ ∀ a, o = .ok a → P a

/-- Whatever the party receives, it sends and receives at most `n` messages and does not panic, and a value it returns
meets `P`. -/
def Guarded (n : Nat) (x : Proc R α) (P : α → Prop) : Prop :=
  ∀ prf, Process.Within (fun o => ReturnsWith P o.1) n (x prf)

theorem ReturnsWith.mono {P Q : α → Prop} {o : Outcome α} (h : ReturnsWith P o) (hQ : ∀ a, P a → Q a) :
    ReturnsWith Q o := ⟨h.1, fun a ha => hQ a (h.2 a ha)⟩

theorem within_bind {n m : Nat} {x : Proc R α} {P : α → Prop} {f : α → Proc R β} {S : β → Prop} {prf : Prf R}
    (h : Process.Within (fun o => ReturnsWith P o.1) n (x prf)) (hf : ∀ a, P a → Guarded m (f a) S) :
    Process.Within (fun o => ReturnsWith S o.1) (m + n) ((x >>= f) prf) := by
  rw [Nat.add_comm]
  refine h.bind fun o ho => ?_
  obtain ⟨o, prf'⟩ := o
  cases o with
  | ok a => exact hf a (ho.2 a rfl) prf'
  | error e =>
    refine .pure ⟨?_, fun _ h => by cases h⟩
    cases e with
    | error m => trivial
    | panic m => exact ho.1

namespace Guarded

variable {P : α → Prop} {S : β → Prop} {n m : Nat}

theorem bind {x : Proc R α} (h : Guarded n x P) {f : α → Proc R β} (hf : ∀ a, P a → Guarded m (f a) S) :
    Guarded (m + n) (x >>= f) S := fun prf => within_bind (h prf) hf

theorem lift {o : Outcome α} (h : ReturnsWith P o) : Guarded 0 (Proc.lift o : Proc R α) P := fun _ => .pure h

theorem pure {a : α} (h : P a) : Guarded 0 (pure a : Proc R α) P :=
  lift (o := .ok a) ⟨trivial, fun _ hb => by cases hb; exact h⟩

theorem draw {f : Prf R → α × Prf R} (h : ∀ prf, P (f prf).1) : Guarded 0 (Proc.draw f) P :=
  fun prf => .pure ⟨trivial, fun _ hb => by cases hb; exact h prf⟩

theorem send (d : Dir) (m : RingMsg) : Guarded 1 (Proc.send d m : Proc R Unit) fun _ => True :=
  fun _ => .send (.pure ⟨trivial, fun _ _ => trivial⟩)

theorem receive (d : Dir) : Guarded 1 (Proc.receive d : Proc R RingMsg) fun _ => True :=
  fun _ => .recv fun _ => .pure ⟨trivial, fun _ _ => trivial⟩

theorem receiveRingVec (t : RingTy) (d : Dir) : Guarded 1 (Proc.receiveRingVec t d : Proc R _) fun _ => True := by
  refine (receive d).bind fun m _ => lift ⟨?_, fun _ _ => trivial⟩
  unfold intoVec
  cases m with
  | element t' e =>
    dsimp only
    by_cases h : t' = t
    · rw [dif_pos h]
      trivial
    · rw [dif_neg h]
      trivial
  | vec t' v =>
    dsimp only
    by_cases h : t' = t
    · rw [dif_pos h]
      trivial
    · rw [dif_neg h]
      trivial
  | _ => trivial

/-- The result of an operation on two vectors has the length of the second one. -/
theorem zip {K k : Nat} (msg : String) (op : BitVec K → BitVec K → BitVec K) (x : List (BitVec K))
    {y : List (BitVec K)} (hy : y.length = k) :
    Guarded 0 (Proc.lift (vecZip msg op x y) : Proc R _) fun r => r.length = k := by
  refine lift ?_
  by_cases h : x.length = y.length
  · rw [vecZip_eq_ok h]
    refine ⟨trivial, fun r hr => ?_⟩
    cases hr
    rw [List.length_zipWith, h, Nat.min_self, hy]
  · rw [vecZip_eq_bail h]
    exact ⟨trivial, fun r hr => by cases hr⟩

theorem shuffleTriplets {K size count : Nat} (hsize : 0 < size) {perm : List Nat} (hperm : ∀ i ∈ perm, i < size)
    {data : List (BitVec K)} (hdata : data.length = count * (size * 3)) :
    Guarded 0 (Proc.lift (shuffleTriplets perm data size) : Proc R _) fun _ => True := by
  rw [shuffleTriplets_eq hsize hperm hdata]
  exact lift ⟨trivial, fun _ _ => trivial⟩

end Guarded

end Guarded

/-! ## The shuffle -/

section Shuffle

variable [Rng R] {t : RingTy} {fuel size count : Nat}

theorem genRandsMany_guarded (t : RingTy) {m n : Nat} (h : m = n) :
    Guarded 0 (Proc.draw (Prf.genRandsMany t m) : Proc R _) fun z => z.1.length = n ∧ z.2.length = n := by
  subst h
  refine Guarded.draw fun prf => ?_
  rw [genRandsMany_eq]
  exact ⟨length_genMany t m _, length_genMany t m _⟩

/-- The permutations are drawn first, and for that the fuel is enough. -/
theorem genPermutation_within {prf : Prf R}
    (hmine : (drawPermutation fuel (size % 2 ^ 32) prf.myPrf).isSome)
    (hprev : (drawPermutation fuel (size % 2 ^ 32) prf.prevPrf).isSome) :
    Process.Within (fun o => ReturnsWith (fun perms : List Nat × List Nat =>
      (∀ i ∈ perms.1, i < size) ∧ ∀ i ∈ perms.2, i < size) o.1) 0 (genPermutation fuel (size % 2 ^ 32) prf) := by
  obtain ⟨⟨permA, rngA⟩, hA⟩ := Option.isSome_iff_exists.mp hmine
  obtain ⟨⟨permB, rngB⟩, hB⟩ := Option.isSome_iff_exists.mp hprev
  have hle : size % 2 ^ 32 ≤ size := Nat.mod_le _ _
  rw [genPermutation_eq, hA, hB]
  refine .pure ⟨trivial, fun perms hperms => ?_⟩
  cases hperms
  exact ⟨fun i hi => (lt_of_mem_perm (drawPermutation_perm hA) i hi).trans_le hle,
    fun i hi => (lt_of_mem_perm (drawPermutation_perm hB) i hi).trans_le hle⟩

variable (hsize : 0 < size) {distances : List (IdDistance t.bits)} (hd : distances.length = count * size)

include hsize hd

theorem shuffleParty0_within {prf : Prf R} (hmine : (drawPermutation fuel (size % 2 ^ 32) prf.myPrf).isSome)
    (hprev : (drawPermutation fuel (size % 2 ^ 32) prf.prevPrf).isSome) :
    Process.Within (fun o => ReturnsWith (fun _ => True) o.1) 1 (shuffleParty0 t fuel distances size prf) := by
  have ha := length_flat hd Share.a
  have hb := length_flat hd Share.b
  refine within_bind (genPermutation_within hmine hprev) ?_
  rintro ⟨pi01, pi20⟩ ⟨h01, h20⟩
  refine (genRandsMany_guarded t ha).bind ?_
  rintro ⟨z01, z20⟩ ⟨hz01, hz20⟩
  refine (Guarded.zip _ _ _ hb).bind fun ab _ => (Guarded.zip _ _ ab hz01).bind fun x0 hx0 => ?_
  refine (Guarded.shuffleTriplets hsize h01 hx0).bind fun x0 _ => (Guarded.zip _ _ x0 hz20).bind fun x1 hx1 => ?_
  refine (Guarded.shuffleTriplets hsize h20 hx1).bind fun x1 _ => (Guarded.send .next _).bind fun _ _ => ?_
  exact (genRandsMany_guarded t rfl).bind fun _ _ => Guarded.pure trivial

theorem shuffleParty1_within {prf : Prf R} (hmine : (drawPermutation fuel (size % 2 ^ 32) prf.myPrf).isSome)
    (hprev : (drawPermutation fuel (size % 2 ^ 32) prf.prevPrf).isSome) :
    Process.Within (fun o => ReturnsWith (fun _ => True) o.1) 4 (shuffleParty1 t fuel distances size prf) := by
  have ha := length_flat hd Share.a
  refine within_bind (genPermutation_within hmine hprev) ?_
  rintro ⟨pi12, pi01⟩ ⟨h12, h01⟩
  refine (genRandsMany_guarded t ha).bind ?_
  rintro ⟨z12, z01⟩ ⟨hz12, hz01⟩
  refine (Guarded.zip _ _ _ hz01).bind fun y0 hy0 => (Guarded.shuffleTriplets hsize h01 hy0).bind fun y0 _ => ?_
  refine (Guarded.send .next _).bind fun _ _ => (Guarded.receiveRingVec t .prev).bind fun x1 _ => ?_
  refine (Guarded.zip _ _ x1 hz12).bind fun x2 hx2 => (Guarded.shuffleTriplets hsize h12 hx2).bind fun x2 _ => ?_
  refine (Guarded.draw (P := fun _ => True) fun _ => trivial).bind fun tildeB _ => ?_
  refine (Guarded.zip _ _ x2 rfl).bind fun tildeC1 _ => (Guarded.send .next _).bind fun _ _ => ?_
  refine (Guarded.receiveRingVec t .next).bind fun tildeC2 _ => (Guarded.zip _ _ tildeC1 rfl).bind fun _ _ => ?_
  exact Guarded.pure trivial

theorem shuffleParty2_within {prf : Prf R} (hmine : (drawPermutation fuel (size % 2 ^ 32) prf.myPrf).isSome)
    (hprev : (drawPermutation fuel (size % 2 ^ 32) prf.prevPrf).isSome) :
    Process.Within (fun o => ReturnsWith (fun _ => True) o.1) 3 (shuffleParty2 t fuel distances size prf) := by
  have hthree : 3 * distances.length = count * (size * 3) := by
    rw [hd]
    ring
  refine within_bind (genPermutation_within hmine hprev) ?_
  rintro ⟨pi20, pi12⟩ ⟨h20, h12⟩
  refine (genRandsMany_guarded t hthree).bind ?_
  rintro ⟨z20, z12⟩ ⟨hz20, hz12⟩
  refine (Guarded.receiveRingVec t .prev).bind fun y0 _ => (Guarded.zip _ _ y0 hz20).bind fun y1 hy1 => ?_
  refine (Guarded.shuffleTriplets hsize h20 hy1).bind fun y1 _ => (Guarded.zip _ _ y1 hz12).bind fun y2 hy2 => ?_
  refine (Guarded.shuffleTriplets hsize h12 hy2).bind fun y2 _ => ?_
  refine (Guarded.draw (P := fun _ => True) fun _ => trivial).bind fun tildeA _ => ?_
  refine (Guarded.zip _ _ y2 rfl).bind fun tildeC2 _ => (Guarded.send .prev _).bind fun _ _ => ?_
  refine (Guarded.receiveRingVec t .prev).bind fun tildeC1 _ => (Guarded.zip _ _ tildeC1 rfl).bind fun _ _ => ?_
  exact Guarded.pure trivial

theorem shuffleAt_within {prf : Prf R} (hmine : (drawPermutation fuel (size % 2 ^ 32) prf.myPrf).isSome)
    (hprev : (drawPermutation fuel (size % 2 ^ 32) prf.prevPrf).isSome) (q : Party) :
    Process.Within (fun o => ReturnsWith (fun _ => True) o.1) 4 (shuffleAt t fuel q distances size prf) := by
  fin_cases q
  · exact (shuffleParty0_within hsize hd hmine hprev).le (by decide)
  · exact shuffleParty1_within hsize hd hmine hprev
  · exact (shuffleParty2_within hsize hd hmine hprev).le (by decide)

omit hsize hd

variable {shape : List Nat} {v : Party → List (List (IdDistance t.bits))} {overflowChecks : Bool} {sid : BitVec 32}
  {σ : Party → Prf R}

/-- One batch at least, and all batches of one length. -/
def ValidBatches (shape : List Nat) : Prop := shape ≠ [] ∧ ∀ n ∈ shape, n = shape.headD 0

theorem ValidBatches.eq_replicate (h : ValidBatches shape) : shape = List.replicate shape.length (shape.headD 0) :=
  List.eq_replicate_of_mem h.2

/-- Batches of other shapes are rejected. -/
theorem randomShuffleBatch_bails (hv : Grouped shape v) (hshape : ¬ ValidBatches shape) (p : Party) :
    ∃ m, (randomShuffleBatch t overflowChecks fuel ⟨p, sid⟩ (v p) : Proc R _) = Proc.lift (.bail m) := by
  unfold randomShuffleBatch
  cases hp : v p with
  | nil => exact ⟨_, rfl⟩
  | cons first rest =>
    have hlengths : ((first :: rest).any fun batch => batch.length != first.length) = true := by
      by_contra hnone
      refine hshape ⟨?_, ?_⟩
      · rw [← hv p, hp]
        exact List.cons_ne_nil _ _
      · rw [← hv p, hp]
        simpa using hnone
    dsimp only
    rw [if_pos hlengths]
    exact ⟨_, rfl⟩

/-- Batches that are not empty, and roles that do not overflow: no party panics, whatever it receives. -/
theorem randomShuffleBatch_within (hbuild : overflowChecks = true → sid.toNat + 2 < 2 ^ 32) (hv : Grouped shape v)
    (hshape : ValidBatches shape) (hsize : 0 < shape.headD 0)
    (hfuel : ∀ p, (drawPermutation fuel (shape.headD 0 % 2 ^ 32) (σ p).myPrf).isSome) (hσ : Lockstep σ) (p : Party) :
    Process.Within (fun o => o.1.Returns) 4 (randomShuffleBatch t overflowChecks fuel ⟨p, sid⟩ (v p) (σ p)) := by
  have hlengths : (v p).map List.length = List.replicate shape.length (shape.headD 0) :=
    (hv p).trans hshape.eq_replicate
  have hprev : (drawPermutation fuel (shape.headD 0 % 2 ^ 32) (σ p).prevPrf).isSome := by
    have hlock := hσ (p - 1)
    rw [sub_add_cancel] at hlock
    rw [← hlock]
    exact hfuel (p - 1)
  have hrole : (sid + BitVec.ofNat 32 p.val).toNat % 3 < 3 := Nat.mod_lt _ (by decide)
  have hne := ne_nil_of_shape (List.length_pos_of_ne_nil hshape.1) hlengths
  rw [randomShuffleBatch_eq fuel (q := ⟨_, hrole⟩) (shuffleRole_of_fits hbuild p) hne
    (isPlanes_of_map_length hlengths).2 hsize]
  have hwithin := shuffleAt_within hsize (length_flatten_of_shape hlengths) (hfuel p) hprev ⟨_, hrole⟩
  exact (within_bind hwithin fun r _ => Guarded.pure (P := fun _ => True) trivial).mono fun o ho => ho.1

/-- Batches without distances: the first role cuts the data into chunks of length zero. -/
theorem randomShuffleBatch_panics (hv : Grouped shape v) (hshape : ValidBatches shape) (hzero : shape.headD 0 = 0)
    {p : Party} (hrole : (Session.mk p sid).shuffleRole overflowChecks = .ok 0) (prf : Prf R) :
    ∃ o, randomShuffleBatch t overflowChecks fuel ⟨p, sid⟩ (v p) prf = .pure o ∧ ¬ o.1.Returns := by
  have hempty : ∀ batch ∈ v p, batch = [] := by
    intro batch hbatch
    have hlength := hshape.2 batch.length (hv p ▸ List.mem_map_of_mem hbatch)
    exact List.length_eq_zero_iff.mp (hlength.trans hzero)
  have hflatten : (v p).flatten = [] := List.flatten_eq_nil_iff.mpr hempty
  have hne : v p ≠ [] := by
    intro hnil
    refine hshape.1 ?_
    rw [← hv p, hnil]
    rfl
  obtain ⟨first, rest, hvp⟩ := List.exists_cons_of_ne_nil hne
  have hfirst : first = [] := hempty first (hvp ▸ List.mem_cons_self)
  have hlen : ∀ batch ∈ first :: rest, batch.length = 0 := fun batch hbatch =>
    List.length_eq_zero_iff.mpr (hempty batch (hvp ▸ hbatch))
  have hany := any_length_ne hlen
  rw [hvp] at hflatten ⊢
  rw [randomShuffleBatch, hany, hrole, hflatten, hfirst]
  exact ⟨_, rfl, id⟩

/-- In the sessions in which no role overflows, batches whose length is a `u32` keep their shape. -/
theorem randomShuffleBatch_grouped (hsid : sid.toNat + 2 < 2 ^ 32) (hv : Grouped shape v) (hshape : ValidBatches shape)
    (hsize : 0 < shape.headD 0) (hlt : shape.headD 0 < 2 ^ 32)
    (hfuel : ∀ p, (drawPermutation fuel (shape.headD 0) (σ p).myPrf).isSome) (hσ : Lockstep σ) :
    SucceedsFrom σ (fun p => (randomShuffleBatch t overflowChecks fuel ⟨p, sid⟩ (v p) : Proc R _)) (Grouped shape) := by
  have hlengths : ∀ p, (v p).map List.length = List.replicate shape.length (shape.headD 0) := fun p =>
    (hv p).trans hshape.eq_replicate
  choose perm hperm using fun p => Option.isSome_iff_exists.mp (hfuel p)
  have hshuffle := randomShuffleBatch_succeeds (C := False) overflowChecks hsid (List.length_pos_of_ne_nil hshape.1)
    hsize hlt hlengths (fun _ (h : _ ∈ []) => absurd h List.not_mem_nil) (fun h => h.elim) hσ (hperm _) (hperm _)
    (hperm _)
  refine hshuffle.mono fun r hr p => (hr.1 p).trans hshape.eq_replicate.symm

/-- The shuffle is total for batches that are not empty, in a build with overflow checks if no role overflows. -/
theorem randomShuffleBatch_total_iff (hends : SamplingEnds R) (hv : Grouped shape v) (hσ : Lockstep σ) :
    (∃ F, ∀ fuel, F ≤ fuel → IsTotal (shape.headD 0 = 0 ∨ (shape.headD 0 < 2 ^ 32 ∧ sid.toNat + 2 < 2 ^ 32))
      (ValidBatches shape) (Grouped shape) (fun p => randomShuffleBatch t overflowChecks fuel ⟨p, sid⟩ (v p)) σ) ↔
        (ValidBatches shape → 0 < shape.headD 0 ∧ (overflowChecks = true → sid.toNat + 2 < 2 ^ 32)) := by
  constructor
  · rintro ⟨F, hF⟩ hshape
    have hbuild : overflowChecks = true → sid.toNat + 2 < 2 ^ 32 := by
      rintro rfl
      by_contra hsid
      exact randomShuffleBatch_not_answers F hsid (List.length_pos_of_ne_nil hshape.1)
        (fun p => (hv p).trans hshape.eq_replicate) σ (hF F le_rfl).1
    refine ⟨?_, hbuild⟩
    by_contra hzero
    obtain ⟨p, -, hrole⟩ := exists_waiting_role hbuild
    obtain ⟨o, ho, hpanic⟩ := randomShuffleBatch_panics hv hshape (Nat.eq_zero_of_not_pos hzero) hrole
      (σ (p - 1))
    exact absurd (hF F le_rfl).1 (Network.not_answers_of_pure (p := p - 1) ho hpanic)
  · intro hpos
    by_cases hshape : ValidBatches shape
    · obtain ⟨hsize, hbuild⟩ := hpos hshape
      have hmod : shape.headD 0 % 2 ^ 32 < 2 ^ 32 := Nat.mod_lt _ (by decide)
      choose F hF using fun p => exists_fuel_drawPermutation hends hmod (σ p).myPrf
      refine ⟨Finset.univ.sup F, fun fuel hfuel => ?_⟩
      have hdraw : ∀ p, (drawPermutation fuel (shape.headD 0 % 2 ^ 32) (σ p).myPrf).isSome := fun p =>
        hF p fuel ((Finset.le_sup (Finset.mem_univ p)).trans hfuel)
      refine ⟨Network.answers_of_within (randomShuffleBatch_within hbuild hv hshape hsize hdraw hσ),
        fun hregular => ?_⟩
      obtain ⟨hlt, hsid⟩ := hregular.resolve_left hsize.ne'
      rw [Nat.mod_eq_of_lt hlt] at hdraw
      obtain ⟨r, σ', hjoint, -, hr⟩ := randomShuffleBatch_grouped hsid hv hshape hsize hlt hdraw hσ
      exact hjoint.settles ⟨fun _ => ⟨r, fun _ => rfl, hr⟩, fun hnot => absurd hshape hnot⟩
    · refine ⟨0, fun fuel _ => ?_⟩
      choose m hm using fun p => (randomShuffleBatch_bails hv hshape p :
        ∃ m, (randomShuffleBatch t overflowChecks fuel ⟨p, sid⟩ (v p) : Proc R _) = Proc.lift (.bail m))
      simp only [hm]
      exact isTotal_of_ends (Ends.lift (total_of_invalid hshape fun p => ⟨_, rfl⟩)) hσ

end Shuffle

/-! ## Totality of the batch protocols -/

section Batches

variable [Rng R] {shape : List Nat} {σ : Party → Prf R}

theorem andProduct_total_iff {len : Nat} {v : Party → List (List (Share 1))} (hv : Grouped shape v) (hσ : Lockstep σ) :
    IsTotal True (ValidProduct len shape) (Sized len) (fun p => andProduct (v p) len) σ ↔
      (ValidProduct len shape → shape.length = 1 ∨ 0 < len) := by
  refine isTotal_iff _ (fun h => ?_) (fun hshape hextra => ?_) hσ
  · by_cases hshape : ValidProduct len shape
    · exact total_of_valid hshape (andProduct_succeeds hv hshape (h hshape))
    · intro σ' hσ'
      obtain ⟨o, σ'', hjoint, ho⟩ := andProduct_bails hv hshape σ' hσ'
      exact ⟨o, σ'', hjoint, total_of_invalid hshape ho⟩
  · push Not at hextra
    obtain rfl : len = 0 := Nat.eq_zero_of_not_pos fun hpos => absurd hpos (by omega)
    exact andProduct_panics hv hshape hextra.1

omit [Rng R] in
/-- A comparison with thresholds that succeeds for a list that is not empty, and panics for an empty one. -/
theorem buckets_total_iff {K k n : Nat} {compare : Party → List (DistanceShare K) → Proc R (List (Share 32))}
    (hpos : ∀ {n} {v : Party → List (DistanceShare K)}, Sized n v → 0 < n →
      Succeeds (fun p => compare p (v p)) (BucketsShape k n))
    (hzero : ∀ {v : Party → List (DistanceShare K)}, Sized 0 v →
      Ends (fun p => compare p (v p)) fun o => ∀ p, ∃ m, o p = .panicked m)
    {v : Party → List (DistanceShare K)} (hv : Sized n v) (hσ : Lockstep σ) :
    IsTotal True True (BucketsShape k n) (fun p => compare p (v p)) σ ↔ 0 < n := by
  rw [isTotal_iff (0 < n) (fun h => total_of_valid trivial (hpos hv (h trivial))) (fun _ hextra => ?_) hσ]
  · exact ⟨fun h => h trivial, fun h _ => h⟩
  · obtain rfl : n = 0 := Nat.eq_zero_of_not_pos hextra
    exact hzero hv

omit [Rng R] in
/-- The same for groups that are reduced first. -/
theorem minBuckets_total_iff {K k : Nat} {compare : Party → List (DistanceShare K) → Proc R (List (Share 32))}
    (hpos : ∀ {n} {v : Party → List (DistanceShare K)}, Sized n v → 0 < n →
      Succeeds (fun p => compare p (v p)) (BucketsShape k n))
    (hzero : ∀ {v : Party → List (DistanceShare K)}, Sized 0 v →
      Ends (fun p => compare p (v p)) fun o => ∀ p, ∃ m, o p = .panicked m)
    {minOfPair : Party → List (DistancePair K) → Proc R (List (DistanceShare K))}
    (hmin : ∀ n (v : Party → List (DistancePair K)), Sized n v → Succeeds (fun p => minOfPair p (v p)) (Sized n))
    {v : Party → List (List (DistanceShare K))} (hv : Grouped shape v) (hσ : Lockstep σ) :
    IsTotal True (∀ n ∈ shape, 0 < n) (BucketsShape k shape.length)
      (fun p => reduceToMinWith (minOfPair p) (v p) >>= compare p) σ ↔ ((∀ n ∈ shape, 0 < n) → shape ≠ []) := by
  refine isTotal_iff _ (fun h => ?_) (fun hshape hextra => ?_) hσ
  · by_cases hshape : ∀ n ∈ shape, 0 < n
    · refine total_of_valid hshape ((reduceToMinWith_sized hmin hv hshape).bind fun reduced hreduced => ?_)
      exact hpos hreduced (List.length_pos_of_ne_nil (h hshape))
    · intro σ' hσ'
      obtain ⟨o, σ'', hjoint, ho⟩ := reduceToMinWith_ends hv hshape (f := compare) σ' hσ'
      exact ⟨o, σ'', hjoint, total_of_invalid hshape ho⟩
  · push Not at hextra
    subst hextra
    exact .bind (reduceToMinWith_sized hmin hv hshape) fun _ hreduced => hzero hreduced

/-- **Totality of the batch protocols**, for inputs of every shape: the shuffle is total except for batches without
distances, and in a build with overflow checks for the sessions with the two largest ids, the product except for two or
more vectors of length zero, and the comparisons except for an empty list. -/
theorem batch_protocols_total_iff (hends : SamplingEnds R) (overflowChecks : Bool) (sid : BitVec 32)
    (hσ : Lockstep σ) :
    (∀ (t : RingTy) (shape : List Nat) (v : Party → List (List (IdDistance t.bits))), Grouped shape v →
      ((∃ F, ∀ fuel, F ≤ fuel → IsTotal (shape.headD 0 = 0 ∨ (shape.headD 0 < 2 ^ 32 ∧ sid.toNat + 2 < 2 ^ 32))
        (ValidBatches shape) (Grouped shape) (fun p => randomShuffleBatch t overflowChecks fuel ⟨p, sid⟩ (v p)) σ) ↔
          (ValidBatches shape → 0 < shape.headD 0 ∧ (overflowChecks = true → sid.toNat + 2 < 2 ^ 32)))) ∧
    (∀ (len : Nat) (shape : List Nat) (v : Party → List (List (Share 1))), Grouped shape v →
      (IsTotal True (ValidProduct len shape) (Sized len) (fun p => andProduct (v p) len) σ ↔
        (ValidProduct len shape → shape.length = 1 ∨ 0 < len))) ∧
    (∀ (thresholds : List (BitVec 32)) (n : Nat) (v : Party → List (DistanceShare 32)), Sized n v →
      (IsTotal True True (BucketsShape thresholds.length n)
        (fun p => compareThresholdBuckets ⟨p, sid⟩ thresholds (v p)) σ ↔ 0 < n)) ∧
    (∀ (thresholds : List Nat) (n : Nat) (v : Party → List (DistanceShare 48)), Sized n v →
      (IsTotal True True (BucketsShape thresholds.length n)
        (fun p => nhdCompareThresholdBuckets ⟨p, sid⟩ thresholds (v p)) σ ↔ 0 < n)) ∧
    (∀ (thresholds : List (BitVec 32)) (shape : List Nat) (v : Party → List (List (DistanceShare 32))),
      Grouped shape v → (IsTotal True (∀ n ∈ shape, 0 < n) (BucketsShape thresholds.length shape.length)
        (fun p => compareMinThresholdBuckets ⟨p, sid⟩ thresholds (v p)) σ ↔
          ((∀ n ∈ shape, 0 < n) → shape ≠ []))) ∧
    (∀ (thresholds : List Nat) (shape : List Nat) (v : Party → List (List (DistanceShare 48))),
      Grouped shape v → (IsTotal True (∀ n ∈ shape, 0 < n) (BucketsShape thresholds.length shape.length)
        (fun p => compareMinThresholdBucketsScoreNormalization ⟨p, sid⟩ thresholds (v p)) σ ↔
          ((∀ n ∈ shape, 0 < n) → shape ≠ []))) := by
  refine ⟨fun t shape v hv => ?_, fun len shape v hv => ?_, fun thresholds n v hv => ?_, fun thresholds n v hv => ?_,
    fun thresholds shape v hv => ?_, fun thresholds shape v hv => ?_⟩
  · exact randomShuffleBatch_total_iff hends hv hσ
  · exact andProduct_total_iff hv hσ
  · exact buckets_total_iff (compareThresholdBuckets_succeeds_of_pos sid thresholds)
      (compareThresholdBuckets_panics sid thresholds) hv hσ
  · exact buckets_total_iff (nhdCompareThresholdBuckets_succeeds_of_pos sid thresholds)
      (nhdCompareThresholdBuckets_panics sid thresholds) hv hσ
  · exact minBuckets_total_iff (compareThresholdBuckets_succeeds_of_pos sid thresholds)
      (compareThresholdBuckets_panics sid thresholds) (fun _ _ => minOfPairBatch_sized sid) hv hσ
  · exact minBuckets_total_iff (nhdCompareThresholdBuckets_succeeds_of_pos sid thresholds)
      (nhdCompareThresholdBuckets_panics sid thresholds) (fun _ _ => nhdMinOfPairBatch_sized sid) hv hσ

/-- Two batches with one distance, and two without. -/
def oneDistance : List (List (IdDistance RingTy.u32.bits)) :=
  [[(⟨1, 2⟩, ⟨⟨3, 4⟩, ⟨5, 6⟩⟩)], [(⟨7, 8⟩, ⟨⟨9, 10⟩, ⟨11, 12⟩⟩)]]

theorem batch_protocols_total_step :
    (∃ F, ∀ fuel, F ≤ fuel → IsTotal (1 = 0 ∨ (1 < 2 ^ 32 ∧ (7#32).toNat + 2 < 2 ^ 32)) (ValidBatches [1, 1])
      (Grouped [1, 1]) (fun p => randomShuffleBatch .u32 true fuel ⟨p, 7⟩ oneDistance) stepStreams) ∧
    IsTotal True (ValidProduct 2 [2, 2]) (Sized 2) (fun _ => andProduct [[⟨1, 0⟩, ⟨0, 0⟩], [⟨1, 1⟩, ⟨0, 1⟩]] 2)
      stepStreams := by
  obtain ⟨hshuffle, hproduct, -⟩ := batch_protocols_total_iff samplingEnds_stepRng true 7#32 lockstep_stepStreams
  exact ⟨(hshuffle .u32 [1, 1] (fun _ => oneDistance) fun _ => rfl).mpr fun _ => ⟨by decide, fun _ => by decide⟩,
    (hproduct 2 [2, 2] _ fun _ => rfl).mpr fun _ => Or.inr (by decide)⟩

/-- Without distances, or with vectors of length zero, the parties panic. -/
theorem batch_protocols_not_total_empty :
    (¬ ∃ F, ∀ fuel, F ≤ fuel → IsTotal (0 = 0 ∨ (0 < 2 ^ 32 ∧ (7#32).toNat + 2 < 2 ^ 32)) (ValidBatches [0, 0])
      (Grouped [0, 0]) (fun p => randomShuffleBatch .u32 false fuel ⟨p, 7⟩ [[], []]) stepStreams) ∧
    (¬ IsTotal True (ValidProduct 0 [0, 0]) (Sized 0) (fun _ => andProduct [[], []] 0) stepStreams) ∧
    ¬ IsTotal True True (BucketsShape 2 0) (fun p => compareThresholdBuckets ⟨p, 7⟩ [100, 200] []) stepStreams := by
  have hbatches : ValidBatches [0, 0] := ⟨by simp, by simp⟩
  have hvectors : ValidProduct 0 [0, 0] := ⟨by simp, by simp⟩
  refine ⟨fun h => ?_, fun h => ?_, fun h => ?_⟩
  · exact absurd ((randomShuffleBatch_total_iff (v := fun _ => [[], []]) samplingEnds_stepRng (fun _ => rfl)
      lockstep_stepStreams).mp h hbatches).1 (by decide)
  · exact absurd ((andProduct_total_iff (v := fun _ => [[], []]) (fun _ => rfl) lockstep_stepStreams).mp h hvectors)
      (by decide)
  · exact absurd ((buckets_total_iff (v := fun _ => []) (compareThresholdBuckets_succeeds_of_pos 7#32 [100, 200])
      (compareThresholdBuckets_panics 7#32 [100, 200]) (fun _ => rfl) lockstep_stepStreams).mp h) (by decide)

end Batches

end AmpcCommon.Protocol
