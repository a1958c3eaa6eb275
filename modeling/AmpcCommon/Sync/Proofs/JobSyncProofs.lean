import AmpcCommon.Sync.JobSync
import Mathlib.Tactic.FinCases

/-!
# Agreement on jobs, proofs

Both calls are one round: every party announces a value, and computes its result from its own value and those of its
neighbours (`SyncCall.prog_eq`). The result is the same function of the three values at all parties
(`SyncCall.combine_eq`).
-/

namespace AmpcCommon.Sync

open Wire Protocol

/-- What the parties agree on in a call. -/
def SyncCall.agreed : SyncCall → Outcome Bool
  | .jobHash hash => .ok (decide (∀ p, hash p = hash 0))
  | .jobValidity hash valid =>
    if ∀ p, hash p = hash 0 then .ok (decide (∀ p, valid p = true))
    else .bail "Mismatched job hashes in job validity sync"

/-- The value a party announces in a call. -/
def SyncCall.announced (p : Party) : SyncCall → NetworkValue
  | .jobHash hash => .bytes (hash p).bytes
  | .jobValidity hash valid => .bytes (validityFrame (hash p) (valid p))

/-- What a party computes from the values it has read. -/
def SyncCall.combine (p : Party) : SyncCall → NetworkValue → NetworkValue → Outcome Bool
  | .jobHash hash => compareHashes p.val (.bytes (hash p).bytes)
  | .jobValidity hash valid => fun fromNext fromPrev => [fromNext, fromPrev].foldlM (checkPeer (hash p)) (valid p)

theorem SyncCall.prog_eq (p : Party) (call : SyncCall) :
    call.prog p = .announce (call.announced p) (call.combine p) := by
  cases call with
  | jobHash hash => rfl
  | jobValidity hash valid => rfl

@[simp] theorem hashBytes_hash (hash : JobHash) : hashBytes (.bytes hash.bytes) = .ok hash.bytes := if_pos hash.size_eq

theorem JobHash.bytes_inj {h h' : JobHash} : h.bytes = h'.bytes ↔ h = h' := by
  cases h
  cases h'
  simp

/-- All parties are one of them and its neighbours. -/
theorem forall_party_iff {P : Party → Prop} (p : Party) : (∀ q, P q) ↔ P p ∧ P (p + 1) ∧ P (p - 1) := by
  constructor
  · intro h
    exact ⟨h p, h (p + 1), h (p - 1)⟩
  · rintro ⟨hp, hnext, hprev⟩ q
    have hcases : ∀ p q : Party, q = p ∨ q = p + 1 ∨ q = p - 1 := by decide
    rcases hcases p q with rfl | rfl | rfl
    · exact hp
    · exact hnext
    · exact hprev

/-- All values are equal if the neighbours of one party have the value of this party. -/
theorem forall_eq_iff {α : Type} (f : Party → α) (p : Party) :
    (∀ q, f q = f 0) ↔ f (p + 1) = f p ∧ f (p - 1) = f p := by
  constructor
  · intro h
    exact ⟨(h _).trans (h p).symm, (h _).trans (h p).symm⟩
  · intro h q
    have hall : ∀ q, f q = f p := (forall_party_iff p).mpr ⟨rfl, h⟩
    rw [hall q, hall 0]

theorem compareHashes_eq (hash : Party → JobHash) (p : Party) :
    compareHashes p.val (.bytes (hash p).bytes) (.bytes (hash (p + 1)).bytes) (.bytes (hash (p - 1)).bytes) =
      .ok (decide (∀ p, hash p = hash 0)) := by
  have hsame : (.ok (decide ((hash 0).bytes = (hash 1).bytes ∧ (hash 1).bytes = (hash 2).bytes)) : Outcome Bool) =
      .ok (decide (∀ p, hash p = hash 0)) := by
    have hiff : (hash 0 = hash 1 ∧ hash 1 = hash 2) ↔ ∀ p, hash p = hash 0 := by
      rw [forall_eq_iff hash 1, and_comm, eq_comm (a := hash 1)]
      exact Iff.rfl
    simp only [JobHash.bytes_inj, hiff]
  rw [← hsame]
  have hcompare : ∀ h0 h1 h2 : JobHash,
      (hashBytes (.bytes h0.bytes) >>= fun b0 => hashBytes (.bytes h1.bytes) >>= fun b1 =>
        hashBytes (.bytes h2.bytes) >>= fun b2 => (pure (decide (b0 = b1 ∧ b1 = b2)) : Outcome Bool)) =
      .ok (decide (h0.bytes = h1.bytes ∧ h1.bytes = h2.bytes)) := by
    intro h0 h1 h2
    simp only [hashBytes_hash, Outcome.ok_bind]
    rfl
  fin_cases p
  · exact hcompare (hash 0) (hash 1) (hash 2)
  · exact hcompare (hash 0) (hash 1) (hash 2)
  · exact hcompare (hash 0) (hash 1) (hash 2)

/-- The frame of another party is accepted if it has the same hash. -/
theorem checkPeer_frame (hash hash' : JobHash) (allValid valid : Bool) :
    checkPeer hash allValid (.bytes (validityFrame hash' valid)) =
      if hash' = hash then .ok (allValid && valid) else .bail "Mismatched job hashes in job validity sync" := by
  have hlen : (validityFrame hash' valid).length = jobHashLen + 1 := by
    rw [validityFrame, List.length_append, hash'.size_eq]
    rfl
  have htake : (validityFrame hash' valid).take jobHashLen = hash'.bytes := by
    rw [validityFrame, ← hash'.size_eq, List.take_left']
    rfl
  have hflag : (validityFrame hash' valid)[jobHashLen]? = some (if valid then 1 else 0) := by
    rw [validityFrame, ← hash'.size_eq, List.getElem?_concat_length]
  unfold checkPeer
  dsimp only
  rw [if_neg (not_not.mpr hlen), htake, hflag]
  by_cases hh : hash' = hash
  · rw [if_pos hh, if_neg (not_not.mpr (congrArg JobHash.bytes hh))]
    cases valid with
    | false => exact congrArg Except.ok (Bool.and_false _).symm
    | true => exact congrArg Except.ok (Bool.and_true _).symm
  · rw [if_neg hh, if_pos (fun h => hh (JobHash.bytes_inj.mp h))]

theorem checkPeers_eq (hash : Party → JobHash) (valid : Party → Bool) (p : Party) :
    [NetworkValue.bytes (validityFrame (hash (p + 1)) (valid (p + 1))),
      .bytes (validityFrame (hash (p - 1)) (valid (p - 1)))].foldlM (checkPeer (hash p)) (valid p) =
      (SyncCall.jobValidity hash valid).agreed := by
  have hfold : ∀ v v', [v, v'].foldlM (checkPeer (hash p)) (valid p) =
      (checkPeer (hash p) (valid p) v >>= fun b => checkPeer (hash p) b v') := by
    intro v v'
    simp
  rw [hfold, checkPeer_frame]
  unfold SyncCall.agreed
  simp only [forall_eq_iff hash p, forall_party_iff (P := fun q => valid q = true) p]
  by_cases hnext : hash (p + 1) = hash p
  · rw [if_pos hnext, Outcome.ok_bind, checkPeer_frame]
    by_cases hprev : hash (p - 1) = hash p
    · rw [if_pos hprev, if_pos ⟨hnext, hprev⟩]
      cases valid p <;> cases valid (p + 1) <;> cases valid (p - 1) <;> rfl
    · rw [if_neg hprev, if_neg fun h => hprev h.2]
  · rw [if_neg hnext, if_neg fun h => hnext h.1]
    rfl

/-- All parties compute what they agree on. -/
theorem SyncCall.combine_eq (call : SyncCall) (p : Party) :
    call.combine p (call.announced (nextParty p)) (call.announced (nextParty.symm p)) = call.agreed := by
  rw [nextParty_apply, nextParty_symm_apply]
  cases call with
  | jobHash hash => exact compareHashes_eq hash p
  | jobValidity hash valid => exact checkPeers_eq hash valid p

theorem SyncCall.completes (call : SyncCall) :
    Network.Completes nextParty (fun p => call.prog p) fun _ => call.agreed := by
  have h : Network.Completes nextParty _ _ :=
    Network.Completes.announce (fun p => call.announced p) fun p => call.combine p
  simp only [SyncCall.combine_eq] at h
  simp only [SyncCall.prog_eq]
  exact h

/-- In a call whose messages are marked, only messages with this mark are read. -/
theorem SyncCall.completes_tagged (call : SyncCall) (k : Nat) :
    Network.Completes nextParty (fun p => (call.prog p).tagged k) fun _ => (call.agreed, [k, k]) := by
  have h : Network.Completes nextParty _ _ :=
    Network.Completes.announce (fun p => (k, call.announced p)) fun p a b => (call.combine p a.2 b.2, [a.1, b.1])
  simp only [SyncCall.combine_eq] at h
  simp only [SyncCall.prog_eq, Process.tagged_announce]
  exact h

theorem runSyncs_completes (calls : List SyncCall) :
    Network.Completes nextParty (fun p => runSyncs p calls) fun _ => calls.map SyncCall.agreed := by
  induction calls with
  | nil => exact Network.Completes.pure _
  | cons call calls ih => exact call.completes.bind (ih.bind (Network.Completes.pure _))

theorem runMarkedSyncs_completes (calls : List SyncCall) (k : Nat) :
    Network.Completes nextParty (fun p => runMarkedSyncs p k calls) fun _ =>
      (calls.zipIdx k).map fun c => (c.1.agreed, [c.2, c.2]) := by
  induction calls generalizing k with
  | nil => exact Network.Completes.pure _
  | cons call calls ih => exact (call.completes_tagged k).bind ((ih (k + 1)).bind (Network.Completes.pure _))

/-- **Job agreement.** Whatever calls the parties make, and in whatever order they send and receive: all parties return
from all calls, no message is left over, and the results of a call are the same at all parties, `Ok` of whether all
hashes are equal for `sync_on_job_hash`, and for `sync_on_job_validity` `Ok` of the conjunction of the flags or, if the
hashes are not all equal, an error. In call `k` a party reads a message of call `k` from each of the others. -/
theorem jobSync_agreed (calls : List SyncCall) :
    (Network.Settles nextParty (fun p => runSyncs p calls) fun r => ∀ p, r p = calls.map SyncCall.agreed) ∧
    Network.Settles nextParty (fun p => runMarkedSyncs p 0 calls) fun r =>
      ∀ p, r p = calls.zipIdx.map fun c => (c.1.agreed, [c.2, c.2]) :=
  ⟨(runSyncs_completes calls).settles fun _ => rfl, (runMarkedSyncs_completes calls 0).settles fun _ => rfl⟩

end AmpcCommon.Sync
