import AmpcCommon.Sync.JobSizes
import AmpcCommon.Sync.Proofs.JobSyncProofs

/-!
# Agreement on the size of a job, proofs

A broadcast gives every party the values of all parties in the order of their roles (`broadcastU64_completes`), so that
both calls compute the same at all parties. A party that reads anything else than eight bytes returns an error.
-/

namespace AmpcCommon.Sync

open Wire Protocol Stats

@[simp] theorem readU64_u64Message (value : BitVec 64) : readU64 (u64Message value) = .ok value := by
  have hlen : (LittleEndian.encode 8 value.toNat).length = 8 := LittleEndian.length_encode 8 _
  have hdecode : LittleEndian.decode (LittleEndian.encode 8 value.toNat) = value.toNat :=
    LittleEndian.decode_encode_of_lt value.isLt
  unfold readU64 u64Message
  dsimp only
  rw [if_neg (not_not.mpr hlen), hdecode, BitVec.ofNat_toNat, BitVec.setWidth_eq]

/-- A value is read if it is a message of this kind, and is an error otherwise. -/
theorem readU64_eq_ok_iff {v : NetworkValue} {value : BitVec 64} : readU64 v = .ok value ↔ v = u64Message value := by
  constructor
  · intro h
    cases v with
    | bytes b =>
      unfold readU64 at h
      dsimp only at h
      by_cases hlen : b.length = 8
      · rw [if_neg (not_not.mpr hlen)] at h
        have hvalue := Except.ok.inj h
        have hlt : LittleEndian.decode b < 2 ^ 64 := by
          have hbound := LittleEndian.decode_lt b
          rw [hlen] at hbound
          exact hbound.trans_eq (by norm_num)
        have hdecode : value.toNat = LittleEndian.decode b := by
          rw [← hvalue, BitVec.toNat_ofNat, Nat.mod_eq_of_lt hlt]
        unfold u64Message
        rw [hdecode, ← hlen, LittleEndian.encode_decode]
      · rw [if_pos hlen] at h
        cases h
    | _ => cases h
  · rintro rfl
    exact readU64_u64Message value

theorem readU64_returns (v : NetworkValue) : (readU64 v).Returns := by
  cases v with
  | bytes b =>
    unfold readU64
    dsimp only
    split
    · trivial
    · trivial
  | _ => trivial

/-- The values of a party and its neighbours, in the order of the roles. -/
theorem orderByRole_eq (f : Party → NetworkValue) (p : Party) :
    orderByRole p.val (f p) (f (p + 1)) (f (p - 1)) = .ok (f 0, f 1, f 2) := by
  fin_cases p
  · rfl
  · rfl
  · rfl

theorem readBroadcast_eq (values : Party → BitVec 64) (p : Party) :
    readBroadcast p.val (values p) (u64Message (values (p + 1))) (u64Message (values (p - 1))) =
      .ok [values 0, values 1, values 2] := by
  unfold readBroadcast
  rw [orderByRole_eq fun q => u64Message (values q), Outcome.ok_bind]
  simp only [List.mapM_cons, List.mapM_nil, readU64_u64Message, Outcome.ok_bind]
  rfl

theorem broadcastU64_completes (values : Party → BitVec 64) :
    Network.Completes nextParty (fun p => broadcastU64 p (values p)) fun _ => .ok [values 0, values 1, values 2] := by
  have h : Network.Completes nextParty _ _ :=
    Network.Completes.announce (fun p => u64Message (values p)) fun p => readBroadcast p.val (values p)
  simp only [nextParty_apply, nextParty_symm_apply, readBroadcast_eq] at h
  exact h

/-- The smallest of three sizes. -/
def leastSize (sizes : Party → BitVec 64) : Nat := min (min (sizes 0).toNat (sizes 1).toNat) (sizes 2).toNat

theorem leastSize_le (sizes : Party → BitVec 64) (p : Party) : leastSize sizes ≤ (sizes p).toNat := by
  unfold leastSize
  fin_cases p
  · exact (min_le_left _ _).trans (min_le_left _ _)
  · exact (min_le_left _ _).trans (min_le_right _ _)
  · exact min_le_right _ _

theorem exists_leastSize (sizes : Party → BitVec 64) : ∃ p, leastSize sizes = (sizes p).toNat := by
  unfold leastSize
  rcases min_choice (min (sizes 0).toNat (sizes 1).toNat) (sizes 2).toNat with h | h
  · rcases min_choice (sizes 0).toNat (sizes 1).toNat with h' | h'
    · exact ⟨0, h.trans h'⟩
    · exact ⟨1, h.trans h'⟩
  · exact ⟨2, h⟩

theorem syncOnJobSizes_completes (sizes : Party → BitVec 64) :
    Network.Completes nextParty (fun p => syncOnJobSizes p (sizes p)) fun _ => .ok (leastSize sizes) :=
  (broadcastU64_completes sizes).bind (Network.Completes.pure _)

theorem all_hashes_iff (hashes : Party → BitVec 64) (p : Party) :
    ([hashes 0, hashes 1, hashes 2].all fun h => h == hashes p) = decide (∀ q, hashes q = hashes 0) := by
  rw [Bool.eq_iff_iff, decide_eq_true_iff]
  simp only [List.all_cons, List.all_nil, Bool.and_true, Bool.and_eq_true, beq_iff_eq]
  constructor
  · rintro ⟨h0, h1, h2⟩ q
    fin_cases q
    · rfl
    · exact h1.trans h0.symm
    · exact h2.trans h0.symm
  · intro h
    exact ⟨(h p).symm, (h 1).trans (h p).symm, (h 2).trans (h p).symm⟩

theorem syncOnIdHash_completes (hashes : Party → BitVec 64) :
    Network.Completes nextParty (fun p => syncOnIdHash p (hashes p)) fun _ =>
      .ok (decide (∀ q, hashes q = hashes 0)) := by
  refine (broadcastU64_completes hashes).bind ?_
  simp only [Outcome.ok_bind, all_hashes_iff]
  exact Network.Completes.pure _

section Jobs

variable {T : Type} (finish : List Int → UInt64) (mapping : Party → SortedMapping T)

/-- The size to which the jobs are cut. -/
def commonSize : Nat := leastSize fun p => BitVec.ofNat 64 (mapping p).len

theorem syncOnJob_completes :
    Network.Completes nextParty (fun p => syncOnJob finish p (mapping p)) fun p =>
      .ok ((mapping p).truncate (commonSize mapping),
        decide (∀ q, ((mapping q).truncate (commonSize mapping)).getIdHash finish =
          ((mapping 0).truncate (commonSize mapping)).getIdHash finish)) := by
  have hhashes : ∀ f : Party → UInt64, (∀ q, (f q).toBitVec = (f 0).toBitVec) ↔ ∀ q, f q = f 0 := by
    intro f
    simp only [UInt64.toBitVec_inj]
  refine (syncOnJobSizes_completes fun p => BitVec.ofNat 64 (mapping p).len).bind ?_
  refine (syncOnIdHash_completes fun p =>
    (((mapping p).truncate (commonSize mapping)).getIdHash finish).toBitVec).bind ?_
  simp only [Outcome.ok_bind, hhashes fun p => ((mapping p).truncate (commonSize mapping)).getIdHash finish]
  exact Network.Completes.pure _

theorem commonSize_spec (hlen : ∀ p, (mapping p).len < 2 ^ 64) :
    (∃ p, commonSize mapping = (mapping p).len) ∧ ∀ p, commonSize mapping ≤ (mapping p).len := by
  have hsize : ∀ p, (BitVec.ofNat 64 (mapping p).len).toNat = (mapping p).len := by
    intro p
    rw [BitVec.toNat_ofNat, Nat.mod_eq_of_lt (hlen p)]
  constructor
  · obtain ⟨p, hp⟩ := exists_leastSize fun p => BitVec.ofNat 64 (mapping p).len
    exact ⟨p, hp.trans (hsize p)⟩
  · intro p
    exact (leastSize_le _ p).trans_eq (hsize p)

end Jobs

/-- The values a party has and reads, by role. -/
def valuesByRole (p : Party) (own fromNext fromPrev : NetworkValue) (q : Party) : NetworkValue :=
  if q = p then own else if q = p + 1 then fromNext else fromPrev

theorem orderByRole_valuesByRole (p : Party) (own fromNext fromPrev : NetworkValue) :
    orderByRole p.val own fromNext fromPrev =
      .ok (valuesByRole p own fromNext fromPrev 0, valuesByRole p own fromNext fromPrev 1,
        valuesByRole p own fromNext fromPrev 2) := by
  fin_cases p
  · rfl
  · rfl
  · rfl

/-- A party that reads a value that is no message of eight bytes returns an error; otherwise it has all values. -/
theorem readBroadcast_cases (p : Party) (value : BitVec 64) (fromNext fromPrev : NetworkValue) :
    (∃ m, readBroadcast p.val value fromNext fromPrev = .bail m) ∨
      ∃ values : Party → BitVec 64, values p = value ∧ fromNext = u64Message (values (p + 1)) ∧
        fromPrev = u64Message (values (p - 1)) ∧
          readBroadcast p.val value fromNext fromPrev = .ok [values 0, values 1, values 2] := by
  set g := valuesByRole p (u64Message value) fromNext fromPrev with hg
  have hread : readBroadcast p.val value fromNext fromPrev = [g 0, g 1, g 2].mapM readU64 := by
    unfold readBroadcast
    rw [orderByRole_valuesByRole, Outcome.ok_bind]
  have hreturns : ([g 0, g 1, g 2].mapM readU64).Returns := by
    simp only [List.mapM_cons, List.mapM_nil]
    refine (readU64_returns _).bind fun x _ => Outcome.Returns.bind ?_ fun l _ => trivial
    refine (readU64_returns _).bind fun x _ => Outcome.Returns.bind ?_ fun l _ => trivial
    exact (readU64_returns _).bind fun x _ => trivial
  rw [hread]
  cases hresult : [g 0, g 1, g 2].mapM readU64 with
  | error e =>
    rw [hresult] at hreturns
    cases e with
    | error m => exact Or.inl ⟨m, rfl⟩
    | panic m => exact absurd hreturns id
  | ok l =>
    right
    simp only [List.mapM_cons, List.mapM_nil] at hresult
    obtain ⟨x0, h0, hresult⟩ := Outcome.bind_eq_ok.mp hresult
    obtain ⟨l1, hresult1, hl⟩ := Outcome.bind_eq_ok.mp hresult
    obtain ⟨x1, h1, hresult1⟩ := Outcome.bind_eq_ok.mp hresult1
    obtain ⟨l2, hresult2, hl1⟩ := Outcome.bind_eq_ok.mp hresult1
    obtain ⟨x2, h2, hresult2⟩ := Outcome.bind_eq_ok.mp hresult2
    cases hresult2
    cases hl1
    cases hl
    rw [readU64_eq_ok_iff] at h0 h1 h2
    have hvalues : ∀ q : Party, g q = u64Message (![x0, x1, x2] q) := by
      intro q
      fin_cases q
      · exact h0
      · exact h1
      · exact h2
    have hself : g p = u64Message value := if_pos rfl
    have hnext : g (p + 1) = fromNext := by
      have hne : p + 1 ≠ p := by simp
      exact (if_neg hne).trans (if_pos rfl)
    have hprev : g (p - 1) = fromPrev := by
      have hne : ∀ q : Party, q - 1 ≠ q ∧ q - 1 ≠ q + 1 := by decide
      exact (if_neg (hne p).1).trans (if_neg (hne p).2)
    have hvalue : ![x0, x1, x2] p = value := by
      have hsame := congrArg readU64 ((hvalues p).symm.trans hself)
      simp only [readU64_u64Message] at hsame
      exact Except.ok.inj hsame
    exact ⟨![x0, x1, x2], hvalue, hnext.symm.trans (hvalues _), hprev.symm.trans (hvalues _), rfl⟩

/-- **Agreement on a job.** In every schedule all parties return the smallest size, and whether all hashes are equal. In
one session the two calls leave all parties with jobs of the smallest size and the same verdict, which, as far as the
hash has no collisions on them, says whether the match ids of the jobs are equal. What a party reads that is no value of
eight bytes is an error. -/
theorem jobs_synchronized :
    (∀ sizes : Party → BitVec 64, Network.Settles nextParty (fun p => syncOnJobSizes p (sizes p)) fun r =>
      ∀ p, r p = .ok (leastSize sizes)) ∧
    (∀ hashes : Party → BitVec 64, Network.Settles nextParty (fun p => syncOnIdHash p (hashes p)) fun r =>
      ∀ p, r p = .ok (decide (∀ q, hashes q = hashes 0))) ∧
    (∀ (T : Type) (finish : List Int → UInt64) (mapping : Party → SortedMapping T), (∀ p, (mapping p).len < 2 ^ 64) →
      ∃ (n : Nat) (same : Bool), (∃ p, n = (mapping p).len) ∧ (∀ p, n ≤ (mapping p).len) ∧
        (Set.InjOn finish {ids | ∃ p, ids = ((mapping p).truncate n).ids} →
          (same = true ↔ ∀ p, ((mapping p).truncate n).ids = ((mapping 0).truncate n).ids)) ∧
        Network.Settles nextParty (fun p => syncOnJob finish p (mapping p)) fun r =>
          ∀ p, r p = .ok ((mapping p).truncate n, same)) ∧
    ∀ (p : Party) (value : BitVec 64) (fromNext fromPrev : NetworkValue),
      (∃ m, readBroadcast p.val value fromNext fromPrev = .bail m) ∨
        ∃ values : Party → BitVec 64, values p = value ∧ fromNext = u64Message (values (p + 1)) ∧
          fromPrev = u64Message (values (p - 1)) ∧
            readBroadcast p.val value fromNext fromPrev = .ok [values 0, values 1, values 2] := by
  refine ⟨?_, ?_, ?_, readBroadcast_cases⟩
  · intro sizes
    exact (syncOnJobSizes_completes sizes).settles fun _ => rfl
  · intro hashes
    exact (syncOnIdHash_completes hashes).settles fun _ => rfl
  · intro T finish mapping hlen
    obtain ⟨hmem, hle⟩ := commonSize_spec mapping hlen
    refine ⟨commonSize mapping, _, hmem, hle, fun hinj => ?_, (syncOnJob_completes finish mapping).settles fun _ => rfl⟩
    rw [decide_eq_true_iff]
    constructor
    · intro h q
      exact hinj ⟨q, rfl⟩ ⟨0, rfl⟩ (h q)
    · intro h q
      exact congrArg finish (h q)

/-- The jobs of three parties; the first one has a row that the others do not have yet. -/
def threeJobs (p : Party) : SortedMapping Unit :=
  SortedMapping.new (if p = 0 then [(9, ()), (3, ()), (5, ())] else [(5, ()), (3, ())])

/-- The jobs are cut to two rows, and have the same match ids then. -/
theorem jobs_synchronized_three :
    Network.Settles nextParty (fun p => syncOnJob (fun ids => UInt64.ofInt ids.sum) p (threeJobs p)) fun r =>
      ∀ p, r p = .ok ((threeJobs p).truncate 2, true) := by
  obtain ⟨-, -, hjobs, -⟩ := jobs_synchronized
  have hsizes : ∀ p, (threeJobs p).len = if p = 0 then 3 else 2 := by decide
  have hids : ∀ p, ((threeJobs p).truncate 2).ids = [3, 5] := by decide
  have hlen : ∀ p, (threeJobs p).len < 2 ^ 64 := by
    intro p
    rw [hsizes]
    split <;> omega
  obtain ⟨n, same, ⟨q, hq⟩, hle, hsame, hsettles⟩ :=
    hjobs Unit (fun ids => UInt64.ofInt ids.sum) threeJobs hlen
  have hn : n = 2 := by
    have h1 := hle 1
    rw [hsizes] at hq h1
    split at hq <;> simp at h1 <;> omega
  subst hn
  have hinj : Set.InjOn (fun ids : List Int => UInt64.ofInt ids.sum)
      {ids | ∃ p, ids = ((threeJobs p).truncate 2).ids} := by
    rintro a ⟨p, rfl⟩ b ⟨p', rfl⟩ -
    rw [hids, hids]
  have htrue : same = true := (hsame hinj).mpr fun p => (hids p).trans (hids 0).symm
  rw [htrue] at hsettles
  exact hsettles

end AmpcCommon.Sync
