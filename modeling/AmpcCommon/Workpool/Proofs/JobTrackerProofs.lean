import AmpcCommon.Workpool.JobTracker

/-!
# Bookkeeping of the job tracker

Each operation is first described by what it does to the tracked state of every job and to the log of
sent results (`recordResponse_spec`, `validatePendingJobs_spec`, ...). The invariant `TrackerInv` is
then kept by every call, so it holds after every sequence of calls.
-/

namespace AmpcCommon.Workpool

variable {Payload : Type} {t : JobTracker Payload}

/-- What is left of a job after an answer: nothing, when it was the last one. -/
def PendingJob.afterAnswer (job : PendingJob Payload) (r : WorkerRsp Payload) :
    Option (PendingJob Payload) :=
  if (job.answer r).pending = ∅ ∧ (job.answer r).registered = ∅ then none else some (job.answer r)

/-- What an answer sends: the results, when it was the last one. -/
def PendingJob.sentByAnswer (job : PendingJob Payload) (r : WorkerRsp Payload) :
    List (JobId × List (WorkerRsp Payload)) :=
  if (job.answer r).pending = ∅ ∧ (job.answer r).registered = ∅ then
    [(r.jobId, (job.answer r).values)]
  else []

@[simp] theorem lostResponse_jobId (w : WorkerId) (j : JobId) :
    (lostResponse w j : WorkerRsp Payload).jobId = j := rfl

@[simp] theorem lostResponse_workerId (w : WorkerId) (j : JobId) :
    (lostResponse w j : WorkerRsp Payload).workerId = w := rfl

namespace JobTracker

theorem job?_insert (s : List (JobId × List (WorkerRsp Payload))) (j j' : JobId)
    (job : PendingJob Payload) :
    (JobTracker.mk (t.jobs.insert j job) s).job? j' = if j' = j then some job else t.job? j' := by
  by_cases h : j' = j
  · subst h
    simp [job?]
  · simp [job?, h, AList.lookup_insert_ne h]

theorem job?_erase (s : List (JobId × List (WorkerRsp Payload))) (j j' : JobId) :
    (JobTracker.mk (t.jobs.erase j) s).job? j' = if j' = j then none else t.job? j' := by
  by_cases h : j' = j
  · subst h
    simp [job?]
  · simp [job?, h, AList.lookup_erase_ne h]

/-- `set_to_pending` moves a registered worker to the pending ones, or returns an error and changes
nothing. -/
theorem setToPending_spec (t : JobTracker Payload) (j : JobId) (w : WorkerId) :
    (∃ job, t.job? j = some job ∧ w ∈ job.registered ∧ (t.setToPending j w).1 = .ok () ∧
      (t.setToPending j w).2.sent = t.sent ∧
      ∀ j', (t.setToPending j w).2.job? j' = if j' = j then
        some ⟨job.registered.erase w, insert w job.pending, job.results⟩ else t.job? j') ∨
    ((∀ job, t.job? j = some job → w ∉ job.registered) ∧
      ∃ msg, t.setToPending j w = (.bail msg, t)) := by
  rw [setToPending]
  cases hj : t.job? j with
  | none =>
    right
    exact ⟨fun _ h => absurd h (by simp), _, rfl⟩
  | some job =>
    by_cases hw : w ∈ job.registered
    · left
      simp only [if_pos hw]
      exact ⟨job, rfl, hw, trivial, trivial, fun j' => job?_insert _ _ _ _⟩
    · right
      simp only [if_neg hw]
      refine ⟨fun job' h => ?_, _, rfl⟩
      cases h
      exact hw

/-- `record_response` takes the answer of a pending worker, or returns an error and changes
nothing. -/
theorem recordResponse_spec (t : JobTracker Payload) (r : WorkerRsp Payload) :
    (∃ job, t.job? r.jobId = some job ∧ r.workerId ∈ job.pending ∧ (t.recordResponse r).1 = .ok () ∧
      (t.recordResponse r).2.sent = t.sent ++ job.sentByAnswer r ∧
      ∀ j', (t.recordResponse r).2.job? j' =
        if j' = r.jobId then job.afterAnswer r else t.job? j') ∨
    ((∀ job, t.job? r.jobId = some job → r.workerId ∉ job.pending) ∧
      ∃ msg, t.recordResponse r = (.bail msg, t)) := by
  rw [recordResponse]
  cases hj : t.job? r.jobId with
  | none =>
    right
    exact ⟨fun _ h => absurd h (by simp), _, rfl⟩
  | some job =>
    by_cases hw : r.workerId ∈ job.pending
    · left
      simp only [if_pos hw]
      refine ⟨job, rfl, hw, ?_⟩
      by_cases hdone : (job.answer r).pending = ∅ ∧ (job.answer r).registered = ∅
      · have hcomplete : (JobTracker.mk (t.jobs.insert r.jobId (job.answer r)) t.sent).completeJob
            r.jobId = ⟨(t.jobs.insert r.jobId (job.answer r)).erase r.jobId,
              t.sent ++ [(r.jobId, (job.answer r).values)]⟩ := by
          rw [completeJob, job?_insert, if_pos rfl]
        simp only [if_pos hdone, hcomplete, PendingJob.sentByAnswer, PendingJob.afterAnswer]
        refine ⟨trivial, trivial, fun j' => ?_⟩
        rw [job?_erase (t := ⟨t.jobs.insert r.jobId (job.answer r), t.sent⟩), job?_insert]
        split_ifs <;> rfl
      · simp only [if_neg hdone, PendingJob.sentByAnswer, PendingJob.afterAnswer, List.append_nil]
        exact ⟨trivial, trivial, fun j' => job?_insert _ _ _ _⟩
    · right
      simp only [if_neg hw]
      refine ⟨fun job' h => ?_, _, rfl⟩
      cases h
      exact hw

theorem cancelJob_spec (t : JobTracker Payload) (j : JobId) :
    (∃ job, t.job? j = some job ∧ (t.cancelJob j).1 = .ok (job.pending.sort (· ≤ ·)) ∧
      (t.cancelJob j).2.sent = t.sent ∧
      ∀ j', (t.cancelJob j).2.job? j' = if j' = j then none else t.job? j') ∨
    (t.job? j = none ∧ ∃ msg, t.cancelJob j = (.bail msg, t)) := by
  rw [cancelJob]
  cases hj : t.job? j with
  | none => exact Or.inr ⟨rfl, _, rfl⟩
  | some job => exact Or.inl ⟨job, rfl, rfl, rfl, fun j' => job?_erase _ _ _⟩

theorem mem_droppedJobs {w : WorkerId} {l : List JobId} {j : JobId} :
    j ∈ t.droppedJobs w l ↔ ∃ job, t.job? j = some job ∧ w ∈ job.pending ∧ j ∉ l := by
  simp only [droppedJobs, List.mem_map, List.mem_filter, decide_eq_true_eq]
  constructor
  · rintro ⟨⟨j', job⟩, ⟨hmem, hw, hl⟩, rfl⟩
    exact ⟨job, AList.mem_lookup_iff.mpr hmem, hw, hl⟩
  · rintro ⟨job, hj, hw, hl⟩
    exact ⟨⟨j, job⟩, ⟨AList.mem_lookup_iff.mp hj, hw, hl⟩, rfl⟩

theorem droppedJobs_nodup (w : WorkerId) (l : List JobId) : (t.droppedJobs w l).Nodup := by
  refine List.Nodup.sublist ?_ t.jobs.keys_nodup
  exact List.Sublist.map _ List.filter_sublist

/-- Answering a list of distinct jobs that have `w` pending answers exactly these. -/
theorem loseJobs_spec (w : WorkerId) (js : List JobId) (hnd : js.Nodup)
    (hw : ∀ j ∈ js, ∃ job, t.job? j = some job ∧ w ∈ job.pending) :
    let t' := js.foldl (fun t j => (t.recordResponse (lostResponse w j)).2) t
    (∀ j, t'.job? j =
      if j ∈ js then (t.job? j).bind fun job => job.afterAnswer (lostResponse w j) else t.job? j) ∧
    ∃ new, t'.sent = t.sent ++ new ∧ (∀ j rs, (j, rs) ∈ new ↔
      j ∈ js ∧ ∃ job, t.job? j = some job ∧ (j, rs) ∈ job.sentByAnswer (lostResponse w j)) ∧
      (new.map Prod.fst).Nodup := by
  induction js generalizing t with
  | nil => exact ⟨fun j => by simp, [], by simp⟩
  | cons j js ih =>
    rw [List.nodup_cons] at hnd
    obtain ⟨job, hj, hwj⟩ := hw j List.mem_cons_self
    rcases recordResponse_spec t (lostResponse w j) with ⟨job', hj', -, -, hsent, hjobs⟩ | ⟨hno, -⟩
    · have hjob' : some job = some job' := hj.symm.trans hj'
      cases hjob'
      replace hjobs : ∀ j', (t.recordResponse (lostResponse w j)).2.job? j' =
        if j' = j then job.afterAnswer (lostResponse w j) else t.job? j' := hjobs
      set t1 := (t.recordResponse (lostResponse w j)).2 with ht1
      have hother : ∀ j' ∈ js, t1.job? j' = t.job? j' := by
        intro j' hj'
        rw [hjobs, if_neg fun h : j' = j => hnd.1 (h ▸ hj')]
      obtain ⟨ihjobs, new, ihsent, ihnew, ihnodup⟩ := ih (t := t1) hnd.2 fun j' hj' => by
        rw [hother j' hj']
        exact hw j' (List.mem_cons_of_mem _ hj')
      refine ⟨fun j' => ?_, job.sentByAnswer (lostResponse w j) ++ new, ?_, ?_, ?_⟩
      · rw [List.foldl_cons, ← ht1, ihjobs]
        by_cases h1 : j' = j
        · subst h1
          simp [hnd.1, hjobs, hj]
        · by_cases h2 : j' ∈ js
          · simp [h1, h2, hother j' h2]
          · simp [h1, h2, hjobs]
      · rw [List.foldl_cons, ← ht1, ihsent, hsent, List.append_assoc]
      · intro j' rs
        rw [List.mem_append, ihnew]
        have hfst : (j', rs) ∈ job.sentByAnswer (lostResponse w j) → j' = j := by
          intro h
          rw [PendingJob.sentByAnswer] at h
          split_ifs at h
          · simp only [List.mem_singleton, Prod.mk.injEq] at h
            exact h.1
          · cases h
        constructor
        · rintro (h | ⟨hj', job', hjob', hrs⟩)
          · obtain rfl := hfst h
            exact ⟨List.mem_cons_self, job, hj, h⟩
          · rw [hother j' hj'] at hjob'
            exact ⟨List.mem_cons_of_mem _ hj', job', hjob', hrs⟩
        · rintro ⟨hj', job', hjob', hrs⟩
          rcases List.mem_cons.mp hj' with rfl | hj'
          · rw [hj] at hjob'
            cases hjob'
            exact Or.inl hrs
          · exact Or.inr ⟨hj', job', by rw [hother j' hj']; exact hjob', hrs⟩
      · rw [List.map_append, List.nodup_append]
        refine ⟨?_, ihnodup, ?_⟩
        · rw [PendingJob.sentByAnswer]
          split_ifs <;> simp
        · intro a ha b hb hab
          have haj : a = j := by
            rw [PendingJob.sentByAnswer] at ha
            split_ifs at ha
            · simpa using ha
            · simp at ha
          obtain ⟨⟨b', rs⟩, hmem, rfl⟩ := List.mem_map.mp hb
          have := ((ihnew b' rs).mp hmem).1
          exact hnd.1 (haj ▸ hab ▸ this)
    · exact absurd hwj (hno job hj)

/-- `validate_pending_jobs` answers exactly the jobs that have the worker pending and that the worker
does not report. -/
theorem validatePendingJobs_spec (t : JobTracker Payload) (w : WorkerId) (l : List JobId) :
    (∀ j, (t.validatePendingJobs w l).job? j =
      (t.job? j).bind fun job =>
        if w ∈ job.pending ∧ j ∉ l then job.afterAnswer (lostResponse w j) else some job) ∧
    ∃ new, (t.validatePendingJobs w l).sent = t.sent ++ new ∧ (∀ j rs, (j, rs) ∈ new ↔
      ∃ job, t.job? j = some job ∧ w ∈ job.pending ∧ j ∉ l ∧
        (j, rs) ∈ job.sentByAnswer (lostResponse w j)) ∧
      (new.map Prod.fst).Nodup := by
  obtain ⟨hjobs, new, hsent, hnew, hnodup⟩ := loseJobs_spec (t := t) w (t.droppedJobs w l)
    (droppedJobs_nodup w l) fun j hj => by
      obtain ⟨job, hj, hw, -⟩ := mem_droppedJobs.mp hj
      exact ⟨job, hj, hw⟩
  refine ⟨fun j => ?_, new, hsent, fun j rs => ?_, hnodup⟩
  · rw [validatePendingJobs, hjobs]
    simp only [mem_droppedJobs]
    cases hj : t.job? j with
    | none => simp
    | some job => simp
  · rw [hnew, mem_droppedJobs]
    constructor
    · rintro ⟨⟨job, hj, hw, hl⟩, job', hj', hrs⟩
      rw [hj] at hj'
      cases hj'
      exact ⟨job, hj, hw, hl, hrs⟩
    · rintro ⟨job, hj, hw, hl, hrs⟩
      exact ⟨⟨job, hj, hw, hl⟩, job, hj, hrs⟩

end JobTracker

theorem PendingJob.lookup_answer (job : PendingJob Payload) (r : WorkerRsp Payload) (w : WorkerId) :
    (job.answer r).results.lookup w = if w = r.workerId then some r else job.results.lookup w := by
  by_cases h : w = r.workerId
  · subst h
    simp [answer]
  · simp [answer, h, AList.lookup_insert_ne h]

theorem PendingJob.mem_keys_answer {job : PendingJob Payload} {r : WorkerRsp Payload}
    {w : WorkerId} :
    w ∈ (job.answer r).results.keys ↔ w = r.workerId ∨ w ∈ job.results.keys :=
  AList.mem_insert _

/-- The workers of a tracked job, split by how far they are. -/
structure JobInv (workers : Finset WorkerId) (j : JobId) (job : PendingJob Payload) : Prop where
  registered_pending : Disjoint job.registered job.pending
  registered_results : Disjoint job.registered job.results.keys.toFinset
  pending_results : Disjoint job.pending job.results.keys.toFinset
  union : job.registered ∪ job.pending ∪ job.results.keys.toFinset = workers
  /-- A tracked job still waits for a worker, unless it never had one. -/
  waits : job.registered ∪ job.pending = ∅ → workers = ∅
  /-- An answer is filed under its own worker and job. -/
  answers : ∀ w r, job.results.lookup w = some r → r.workerId = w ∧ r.jobId = j

/-- One answer per worker of the job, and no other. -/
structure AnsweredBy (workers : Finset WorkerId) (j : JobId) (rs : List (WorkerRsp Payload)) :
    Prop where
  nodup : (rs.map (·.workerId)).Nodup
  workers_eq : (rs.map (·.workerId)).toFinset = workers
  jobId_eq : ∀ r ∈ rs, r.jobId = j

namespace JobInv

variable {workers : Finset WorkerId} {j : JobId} {job : PendingJob Payload}

theorem registerJob (j : JobId) (workers : Finset WorkerId) :
    JobInv workers j (⟨workers, ∅, ∅⟩ : PendingJob Payload) where
  registered_pending := Finset.disjoint_empty_right _
  registered_results := by simp
  pending_results := by simp
  union := by simp
  waits := by simp
  answers := by simp

theorem setToPending (h : JobInv workers j job) {w : WorkerId} (hw : w ∈ job.registered) :
    JobInv workers j (⟨job.registered.erase w, insert w job.pending, job.results⟩) where
  registered_pending := by
    have := h.registered_pending
    simp only [Finset.disjoint_left, Finset.mem_erase, Finset.mem_insert] at this ⊢
    rintro a ⟨hne, ha⟩ (rfl | hp)
    · exact hne rfl
    · exact this ha hp
  registered_results := h.registered_results.mono_left (Finset.erase_subset _ _)
  pending_results := by
    have := h.registered_results
    rw [Finset.disjoint_insert_left]
    exact ⟨Finset.disjoint_left.mp this hw, h.pending_results⟩
  union := by
    rw [Finset.union_insert, ← Finset.insert_union, Finset.insert_erase hw]
    exact h.union
  waits := fun he => by simp at he
  answers := h.answers

theorem lookup_answer (h : JobInv workers j job) {r : WorkerRsp Payload} (hj : r.jobId = j)
    (w : WorkerId) (r' : WorkerRsp Payload) (hr' : (job.answer r).results.lookup w = some r') :
    r'.workerId = w ∧ r'.jobId = j := by
  rw [PendingJob.lookup_answer] at hr'
  split_ifs at hr' with hw
  · cases hr'
    exact ⟨hw.symm, hj⟩
  · exact h.answers w r' hr'

theorem answer (h : JobInv workers j job) {r : WorkerRsp Payload} (hj : r.jobId = j)
    (hw : r.workerId ∈ job.pending)
    (hlast : ¬ ((job.answer r).pending = ∅ ∧ (job.answer r).registered = ∅)) :
    JobInv workers j (job.answer r) := by
  have hkeys : (job.answer r).results.keys.toFinset =
      insert r.workerId job.results.keys.toFinset := by
    ext a
    simp [PendingJob.mem_keys_answer]
  refine ⟨?_, ?_, ?_, ?_, ?_, ?_⟩
  · exact h.registered_pending.mono_right (Finset.erase_subset _ _)
  · rw [hkeys, Finset.disjoint_insert_right]
    exact ⟨Finset.disjoint_right.mp h.registered_pending hw, h.registered_results⟩
  · rw [hkeys, Finset.disjoint_insert_right]
    exact ⟨Finset.notMem_erase _ _, h.pending_results.mono_left (Finset.erase_subset _ _)⟩
  · rw [hkeys, ← h.union]
    ext a
    simp only [PendingJob.answer, Finset.mem_union, Finset.mem_erase, Finset.mem_insert]
    by_cases ha : a = r.workerId
    · subst ha
      simp [hw]
    · simp [ha]
  · intro he
    rw [Finset.union_eq_empty] at he
    exact absurd ⟨he.2, he.1⟩ hlast
  · exact h.lookup_answer hj

/-- The last answer completes the set of answers. -/
theorem answeredBy (h : JobInv workers j job) {r : WorkerRsp Payload} (hj : r.jobId = j)
    (hw : r.workerId ∈ job.pending)
    (hlast : (job.answer r).pending = ∅ ∧ (job.answer r).registered = ∅) :
    AnsweredBy workers j (job.answer r).values := by
  have hlookup := h.lookup_answer hj
  have hids : (job.answer r).values.map (·.workerId) = (job.answer r).results.keys := by
    rw [PendingJob.values, List.map_map, AList.keys, List.keys]
    refine List.map_congr_left fun e he => ?_
    exact (hlookup e.1 e.2 (AList.mem_lookup_iff.mpr he)).1
  refine ⟨?_, ?_, ?_⟩
  · rw [hids]
    exact AList.keys_nodup _
  · rw [hids, ← h.union]
    have hreg : job.registered = ∅ := hlast.2
    have hpend : job.pending.erase r.workerId = ∅ := hlast.1
    ext a
    simp only [List.mem_toFinset, PendingJob.mem_keys_answer, hreg, Finset.empty_union,
      Finset.mem_union]
    rw [← Finset.insert_erase hw, hpend]
    simp
  · intro r' hr'
    obtain ⟨e, he, rfl⟩ := List.mem_map.mp hr'
    exact (hlookup e.1 e.2 (AList.mem_lookup_iff.mpr he)).2

end JobInv

/-- The call answers job `j` with `r`, provided that the job has the worker of `r` pending. -/
def TrackerCall.Answers : TrackerCall Payload → JobId → WorkerRsp Payload → Prop
  | .recordResponse r', j, r => r' = r ∧ r.jobId = j
  | .validatePendingJobs w l, j, r => j ∉ l ∧ r = lostResponse w j
  | _, _, _ => False

namespace TrackerCall

variable {c : TrackerCall Payload} {j : JobId} {r : WorkerRsp Payload}

theorem Answers.jobId_eq (h : c.Answers j r) : r.jobId = j := by
  cases c with
  | recordResponse r' => exact h.2
  | validatePendingJobs w l =>
    rw [h.2]
    rfl
  | _ => exact h.elim

/-- Everything a call can do to a job. -/
theorem run_job?_cases (c : TrackerCall Payload) (t : JobTracker Payload) (j : JobId) :
    (c.run t).2.job? j = t.job? j ∨
    (∃ jobType, c = .registerJob j jobType ∧
      (c.run t).2.job? j = some ⟨jobType.workers, ∅, ∅⟩) ∨
    (∃ w job, c = .setToPending j w ∧ t.job? j = some job ∧ w ∈ job.registered ∧
      (c.run t).2.job? j = some ⟨job.registered.erase w, insert w job.pending, job.results⟩) ∨
    (∃ r job, c.Answers j r ∧ t.job? j = some job ∧ r.workerId ∈ job.pending ∧
      (c.run t).2.job? j = job.afterAnswer r) ∨
    (c = .cancelJob j ∧ (c.run t).2.job? j = none) := by
  cases c with
  | registerJob j' jobType =>
    have hjob : (t.registerJob j' jobType).job? j =
        if j = j' then some ⟨jobType.workers, ∅, ∅⟩ else t.job? j := JobTracker.job?_insert _ _ _ _
    by_cases hj : j = j'
    · subst hj
      rw [if_pos rfl] at hjob
      exact Or.inr (Or.inl ⟨jobType, rfl, hjob⟩)
    · rw [if_neg hj] at hjob
      exact Or.inl hjob
  | setToPending j' w =>
    rcases t.setToPending_spec j' w with ⟨job, hjob, hw, -, -, hjobs⟩ | ⟨-, msg, herr⟩
    · by_cases hj : j = j'
      · subst hj
        have := hjobs j
        rw [if_pos rfl] at this
        exact Or.inr (Or.inr (Or.inl ⟨w, job, rfl, hjob, hw, this⟩))
      · left
        have := hjobs j
        rwa [if_neg hj] at this
    · left
      rw [run, herr]
  | recordResponse r =>
    rcases t.recordResponse_spec r with ⟨job, hjob, hw, -, -, hjobs⟩ | ⟨-, msg, herr⟩
    · by_cases hj : j = r.jobId
      · subst hj
        have := hjobs r.jobId
        rw [if_pos rfl] at this
        exact Or.inr (Or.inr (Or.inr (Or.inl ⟨r, job, ⟨rfl, rfl⟩, hjob, hw, this⟩)))
      · left
        have := hjobs j
        rwa [if_neg hj] at this
    · left
      rw [run, herr]
  | validatePendingJobs w l =>
    have hjob := (t.validatePendingJobs_spec w l).1 j
    cases hj : t.job? j with
    | none =>
      left
      rw [hj] at hjob
      exact hjob
    | some job =>
      rw [hj, Option.bind_some] at hjob
      split_ifs at hjob with hlost
      · exact Or.inr (Or.inr (Or.inr (Or.inl
          ⟨lostResponse w j, job, ⟨hlost.2, rfl⟩, rfl, hlost.1, hjob⟩)))
      · exact Or.inl hjob
  | cancelJob j' =>
    rcases t.cancelJob_spec j' with ⟨job, hjob, -, -, hjobs⟩ | ⟨-, msg, herr⟩
    · by_cases hj : j = j'
      · subst hj
        have := hjobs j
        rw [if_pos rfl] at this
        exact Or.inr (Or.inr (Or.inr (Or.inr ⟨rfl, this⟩)))
      · left
        have := hjobs j
        rwa [if_neg hj] at this
    · left
      rw [run, herr]

/-- A call sends the results of the jobs it answers last. -/
theorem run_sent (c : TrackerCall Payload) (t : JobTracker Payload) :
    ∃ new, (c.run t).2.sent = t.sent ++ new ∧ (new.map Prod.fst).Nodup ∧
      ∀ j rs, (j, rs) ∈ new ↔ ∃ job r, t.job? j = some job ∧ c.Answers j r ∧
        r.workerId ∈ job.pending ∧ (j, rs) ∈ job.sentByAnswer r := by
  have hnone : ∀ {t' : JobTracker Payload}, t'.sent = t.sent → (∀ j r, ¬ c.Answers j r) →
      ∃ new, t'.sent = t.sent ++ new ∧ (new.map Prod.fst).Nodup ∧
        ∀ j rs, (j, rs) ∈ new ↔ ∃ job r, t.job? j = some job ∧ c.Answers j r ∧
          r.workerId ∈ job.pending ∧ (j, rs) ∈ job.sentByAnswer r := by
    intro t' ht' hans
    exact ⟨[], by simpa using ht', List.nodup_nil, fun j rs => by simp [hans]⟩
  cases c with
  | registerJob j' jobType => exact hnone rfl fun _ _ => id
  | setToPending j' w =>
    refine hnone ?_ fun _ _ => id
    rcases t.setToPending_spec j' w with ⟨-, -, -, -, hsent, -⟩ | ⟨-, msg, herr⟩
    · exact hsent
    · rw [run, herr]
  | recordResponse r =>
    rcases t.recordResponse_spec r with ⟨job, hjob, hw, -, hsent, -⟩ | ⟨hno, msg, herr⟩
    · refine ⟨job.sentByAnswer r, hsent, ?_, fun j rs => ?_⟩
      · rw [PendingJob.sentByAnswer]
        split_ifs <;> simp
      · constructor
        · intro h
          have hj : j = r.jobId := by
            rw [PendingJob.sentByAnswer] at h
            split_ifs at h
            · exact (Prod.mk.inj (List.mem_singleton.mp h)).1
            · cases h
          exact ⟨job, r, hj ▸ hjob, ⟨rfl, hj.symm⟩, hw, h⟩
        · rintro ⟨job', r', hjob', ⟨rfl, rfl⟩, -, hrs⟩
          rw [hjob] at hjob'
          cases hjob'
          exact hrs
    · refine ⟨[], by rw [run, herr, List.append_nil], List.nodup_nil, fun j rs => ?_⟩
      simp only [List.not_mem_nil, false_iff]
      rintro ⟨job, r', hjob, ⟨rfl, rfl⟩, hw, -⟩
      exact hno job hjob hw
  | validatePendingJobs w l =>
    obtain ⟨-, new, hsent, hnew, hnodup⟩ := t.validatePendingJobs_spec w l
    refine ⟨new, hsent, hnodup, fun j rs => ?_⟩
    rw [hnew]
    constructor
    · rintro ⟨job, hjob, hw, hl, hrs⟩
      exact ⟨job, lostResponse w j, hjob, ⟨hl, rfl⟩, hw, hrs⟩
    · rintro ⟨job, r, hjob, ⟨hl, rfl⟩, hw, hrs⟩
      exact ⟨job, hjob, hw, hl, hrs⟩
  | cancelJob j' =>
    refine hnone ?_ fun _ _ => id
    rcases t.cancelJob_spec j' with ⟨-, -, -, hsent, -⟩ | ⟨-, msg, herr⟩
    · exact hsent
    · rw [run, herr]

/-- A call that returns an error changes nothing. -/
theorem run_error (c : TrackerCall Payload) (t : JobTracker Payload) {e : Failure}
    (h : (c.run t).1 = .error e) : (c.run t).2 = t := by
  cases c with
  | registerJob j' jobType => cases h
  | setToPending j' w =>
    rcases t.setToPending_spec j' w with ⟨-, -, -, hok, -⟩ | ⟨-, msg, herr⟩
    · rw [run, hok] at h
      cases h
    · rw [run, herr]
  | recordResponse r =>
    rcases t.recordResponse_spec r with ⟨-, -, -, hok, -⟩ | ⟨-, msg, herr⟩
    · rw [run, hok] at h
      cases h
    · rw [run, herr]
  | validatePendingJobs w l => cases h
  | cancelJob j' =>
    rcases t.cancelJob_spec j' with ⟨job, -, hok, -⟩ | ⟨-, msg, herr⟩
    · rw [run, hok] at h
      cases h
    · rw [run, herr]

end TrackerCall

/-- The state of the tracker after the registrations `regs` and any other calls. -/
structure TrackerInv (regs : List (JobId × Finset WorkerId)) (t : JobTracker Payload) : Prop where
  tracked : ∀ j job, t.job? j = some job → ∃ ws, (j, ws) ∈ regs ∧ JobInv ws j job
  sent : ∀ j rs, (j, rs) ∈ t.sent → t.job? j = none ∧ ∃ ws, (j, ws) ∈ regs ∧ AnsweredBy ws j rs
  /-- No job sends twice. -/
  once : (t.sent.map Prod.fst).Nodup

theorem PendingJob.mem_sentByAnswer {job : PendingJob Payload} {r : WorkerRsp Payload} {j : JobId}
    {rs : List (WorkerRsp Payload)} :
    (j, rs) ∈ job.sentByAnswer r ↔ j = r.jobId ∧ rs = (job.answer r).values ∧
      (job.answer r).pending = ∅ ∧ (job.answer r).registered = ∅ := by
  rw [sentByAnswer]
  split_ifs with h
  · simp [h]
  · simp only [List.not_mem_nil, false_iff]
    rintro ⟨-, -, h'⟩
    exact h h'

/-- Every call with a new job id keeps the invariant. -/
theorem TrackerInv.run {regs : List (JobId × Finset WorkerId)} (h : TrackerInv regs t)
    (c : TrackerCall Payload) (hfresh : ∀ reg ∈ c.registers, reg.1 ∉ regs.map Prod.fst) :
    TrackerInv (regs ++ c.registers.toList) (c.run t).2 := by
  have hmono : ∀ {x}, x ∈ regs → x ∈ regs ++ c.registers.toList := fun hx =>
    List.mem_append_left _ hx
  obtain ⟨new, hsent, hnodup, hnew⟩ := c.run_sent t
  -- a job the call sends was tracked, and is answered by all its workers
  have hnew' : ∀ j rs, (j, rs) ∈ new → (t.job? j).isSome ∧ (c.run t).2.job? j = none ∧
      ∃ ws, (j, ws) ∈ regs ∧ AnsweredBy ws j rs := by
    intro j rs hrs
    obtain ⟨job, r, hjob, hans, hw, hmem⟩ := (hnew j rs).mp hrs
    obtain ⟨-, rfl, hlast⟩ := PendingJob.mem_sentByAnswer.mp hmem
    obtain ⟨ws, hws, hinv⟩ := h.tracked j job hjob
    refine ⟨by rw [hjob]; rfl, ?_, ws, hws, hinv.answeredBy hans.jobId_eq hw hlast⟩
    cases c with
    | recordResponse r' =>
      obtain ⟨rfl, rfl⟩ := hans
      rcases t.recordResponse_spec r' with ⟨job', hjob', -, -, -, hjobs⟩ | ⟨hno, -⟩
      · rw [hjob] at hjob'
        cases hjob'
        have := hjobs r'.jobId
        rwa [if_pos rfl, PendingJob.afterAnswer, if_pos hlast] at this
      · exact absurd hw (hno job hjob)
    | validatePendingJobs w l =>
      obtain ⟨hl, rfl⟩ := hans
      have := (t.validatePendingJobs_spec w l).1 j
      rwa [hjob, Option.bind_some, if_pos ⟨hw, hl⟩, PendingJob.afterAnswer, if_pos hlast] at this
    | _ => exact hans.elim
  refine ⟨fun j job hjob => ?_, fun j rs hrs => ?_, ?_⟩
  · rcases c.run_job?_cases t j with hsame | ⟨jobType, rfl, hreg⟩ | ⟨w, job', rfl, hjob', hw, hset⟩ |
      ⟨r, job', hans, hjob', hw, hafter⟩ | ⟨-, hcancel⟩
    · rw [hsame] at hjob
      obtain ⟨ws, hws, hinv⟩ := h.tracked j job hjob
      exact ⟨ws, hmono hws, hinv⟩
    · rw [hreg] at hjob
      cases hjob
      exact ⟨jobType.workers, by simp [TrackerCall.registers], JobInv.registerJob j _⟩
    · rw [hset] at hjob
      cases hjob
      obtain ⟨ws, hws, hinv⟩ := h.tracked j job' hjob'
      exact ⟨ws, hmono hws, hinv.setToPending hw⟩
    · rw [hafter, PendingJob.afterAnswer] at hjob
      split_ifs at hjob with hlast
      cases hjob
      obtain ⟨ws, hws, hinv⟩ := h.tracked j job' hjob'
      exact ⟨ws, hmono hws, hinv.answer hans.jobId_eq hw hlast⟩
    · rw [hcancel] at hjob
      cases hjob
  · rw [hsent, List.mem_append] at hrs
    rcases hrs with hold | hrs
    · obtain ⟨hgone, ws, hws, hall⟩ := h.sent j rs hold
      refine ⟨?_, ws, hmono hws, hall⟩
      rcases c.run_job?_cases t j with hsame | ⟨jobType, rfl, -⟩ | ⟨w, job', rfl, hjob', -⟩ |
        ⟨r, job', -, hjob', -⟩ | ⟨-, hcancel⟩
      · rw [hsame]
        exact hgone
      · exact absurd (List.mem_map.mpr ⟨_, hws, rfl⟩) (hfresh (j, jobType.workers) rfl)
      · rw [hgone] at hjob'
        cases hjob'
      · rw [hgone] at hjob'
        cases hjob'
      · exact hcancel
    · obtain ⟨-, hgone, ws, hws, hall⟩ := hnew' j rs hrs
      exact ⟨hgone, ws, hmono hws, hall⟩
  · rw [hsent, List.map_append, List.nodup_append]
    refine ⟨h.once, hnodup, ?_⟩
    intro a ha b hb hab
    obtain ⟨⟨a', rs⟩, hmem, rfl⟩ := List.mem_map.mp ha
    obtain ⟨⟨b', rs'⟩, hmem', rfl⟩ := List.mem_map.mp hb
    have hgone := (h.sent a' rs hmem).1
    have hsome := (hnew' b' rs' hmem').1
    have hab : a' = b' := hab
    rw [← hab, hgone] at hsome
    cases hsome

theorem runCalls_concat (calls : List (TrackerCall Payload)) (c : TrackerCall Payload) (t : JobTracker Payload) :
    runCalls (calls ++ [c]) t = (c.run (runCalls calls t)).2 := by
  rw [runCalls, List.foldl_append]
  rfl

theorem registrations_concat (calls : List (TrackerCall Payload)) (c : TrackerCall Payload) :
    registrations (calls ++ [c]) = registrations calls ++ c.registers.toList := by
  rw [registrations, List.filterMap_append, registrations]
  cases hc : c.registers <;> simp [hc]

theorem runCalls_inv (calls : List (TrackerCall Payload))
    (hids : ((registrations calls).map Prod.fst).Nodup) :
    TrackerInv (registrations calls) (runCalls calls .new) := by
  induction calls using List.reverseRecOn with
  | nil =>
    refine ⟨fun j job h => ?_, fun j rs h => ?_, List.nodup_nil⟩
    · cases h
    · cases h
  | append_singleton calls c ih =>
    rw [registrations_concat, List.map_append, List.nodup_append] at hids
    rw [registrations_concat, runCalls_concat]
    refine (ih hids.1).run c fun reg hreg hmem => ?_
    exact hids.2.2 reg.1 hmem reg.1 (List.mem_map.mpr ⟨reg, by simpa using hreg, rfl⟩) rfl

/-! ## What becomes of a registered job -/

/-- One of the calls has cancelled the job while it was tracked. -/
def Cancelled (calls : List (TrackerCall Payload)) (j : JobId) : Prop :=
  ∃ before after, calls = before ++ .cancelJob j :: after ∧ ((runCalls before .new).job? j).isSome

theorem Cancelled.concat {calls : List (TrackerCall Payload)} {j : JobId} (h : Cancelled calls j)
    (c : TrackerCall Payload) : Cancelled (calls ++ [c]) j := by
  obtain ⟨before, after, rfl, hsome⟩ := h
  exact ⟨before, after ++ [c], by simp, hsome⟩

/-- A call keeps a tracked job, sends its results, or cancels it. -/
theorem TrackerCall.run_tracked (c : TrackerCall Payload) {j : JobId} {job : PendingJob Payload}
    (hjob : t.job? j = some job) :
    ((c.run t).2.job? j).isSome ∨ (∃ rs, (j, rs) ∈ (c.run t).2.sent) ∨ c = .cancelJob j := by
  rcases c.run_job?_cases t j with hsame | ⟨jobType, -, hreg⟩ | ⟨w, job', -, -, -, hset⟩ |
    ⟨r, job', hans, hjob', hw, hafter⟩ | ⟨hcancel, -⟩
  · left
    rw [hsame, hjob]
    rfl
  · left
    rw [hreg]
    rfl
  · left
    rw [hset]
    rfl
  · by_cases hlast : (job'.answer r).pending = ∅ ∧ (job'.answer r).registered = ∅
    · right
      left
      obtain ⟨new, hsent, -, hnew⟩ := c.run_sent t
      refine ⟨(job'.answer r).values, ?_⟩
      rw [hsent]
      refine List.mem_append_right _ ((hnew _ _).mpr ⟨job', r, hjob', hans, hw, ?_⟩)
      exact PendingJob.mem_sentByAnswer.mpr ⟨hans.jobId_eq.symm, rfl, hlast⟩
    · left
      rw [hafter, PendingJob.afterAnswer, if_neg hlast]
      rfl
  · exact Or.inr (Or.inr hcancel)

/-- A registered job that was not cancelled is tracked until its results are sent. -/
theorem tracked_or_sent (calls : List (TrackerCall Payload)) {j : JobId} {ws : Finset WorkerId}
    (hreg : (j, ws) ∈ registrations calls) (hlive : ¬ Cancelled calls j) :
    ((runCalls calls .new).job? j).isSome ∨ ∃ rs, (j, rs) ∈ (runCalls calls .new).sent := by
  induction calls using List.reverseRecOn with
  | nil => cases hreg
  | append_singleton calls c ih =>
    rw [registrations_concat, List.mem_append] at hreg
    rw [runCalls_concat]
    rcases hreg with hold | hnew
    · rcases ih hold fun h => hlive (h.concat c) with htracked | ⟨rs, hrs⟩
      · obtain ⟨job, hjob⟩ := Option.isSome_iff_exists.mp htracked
        rcases c.run_tracked hjob with hkept | hsent | rfl
        · exact Or.inl hkept
        · exact Or.inr hsent
        · exact absurd ⟨calls, [], rfl, htracked⟩ hlive
      · obtain ⟨new, hsent, -⟩ := c.run_sent (runCalls calls .new)
        right
        exact ⟨rs, by rw [hsent]; exact List.mem_append_left _ hrs⟩
    · left
      cases c with
      | registerJob j' jobType =>
        cases List.mem_singleton.mp hnew
        show ((runCalls calls .new).registerJob j jobType |>.job? j).isSome = true
        rw [JobTracker.registerJob, JobTracker.job?_insert, if_pos rfl]
        rfl
      | _ => cases hnew

/-- A cancelled job is not tracked again, and sends nothing. -/
theorem not_tracked_of_cancelled (calls : List (TrackerCall Payload))
    (hids : ((registrations calls).map Prod.fst).Nodup) {j : JobId} (h : Cancelled calls j) :
    (runCalls calls .new).job? j = none ∧ ∀ rs, (j, rs) ∉ (runCalls calls .new).sent := by
  obtain ⟨before, after, rfl, hsome⟩ := h
  induction after using List.reverseRecOn with
  | nil =>
    have hinv := runCalls_inv before (by
      rw [registrations_concat, List.map_append, List.nodup_append] at hids
      exact hids.1)
    rw [runCalls_concat]
    rcases (runCalls before .new).cancelJob_spec j with ⟨job, hjob, -, hsent, hjobs⟩ | ⟨hnone, -⟩
    · refine ⟨(hjobs j).trans (if_pos rfl), fun rs hrs => ?_⟩
      rw [TrackerCall.run, hsent] at hrs
      rw [(hinv.sent j rs hrs).1] at hjob
      cases hjob
    · rw [hnone] at hsome
      cases hsome
  | append_singleton after c ih =>
    have hassoc : before ++ .cancelJob j :: (after ++ [c]) = (before ++ .cancelJob j :: after) ++ [c] := by simp
    rw [hassoc, registrations_concat, List.map_append, List.nodup_append] at hids
    obtain ⟨hnone, hunsent⟩ := ih hids.1
    rw [hassoc, runCalls_concat]
    -- The job was registered before it was cancelled, so that its id is not free.
    have hreg : j ∈ (registrations (before ++ .cancelJob j :: after)).map Prod.fst := by
      obtain ⟨job, hjob⟩ := Option.isSome_iff_exists.mp hsome
      have hbefore : ((registrations before).map Prod.fst).Nodup := by
        refine hids.1.sublist (List.Sublist.map _ ?_)
        rw [registrations, registrations, List.filterMap_append]
        exact List.sublist_append_left _ _
      obtain ⟨ws, hws, -⟩ := (runCalls_inv before hbefore).tracked j job hjob
      refine List.mem_map.mpr ⟨(j, ws), ?_, rfl⟩
      rw [registrations, List.filterMap_append]
      exact List.mem_append_left _ hws
    constructor
    · rcases c.run_job?_cases (runCalls (before ++ .cancelJob j :: after) .new) j with hsame | ⟨jobType, rfl, -⟩ |
        ⟨w, job', -, hjob', -⟩ | ⟨r, job', -, hjob', -⟩ | ⟨-, hcancel⟩
      · rw [hsame]
        exact hnone
      · exact absurd rfl (hids.2.2 j hreg j (by simp [TrackerCall.registers]))
      · rw [hnone] at hjob'
        cases hjob'
      · rw [hnone] at hjob'
        cases hjob'
      · exact hcancel
    · intro rs hrs
      obtain ⟨new, hsent, -, hnew⟩ := c.run_sent (runCalls (before ++ .cancelJob j :: after) .new)
      rw [hsent, List.mem_append] at hrs
      rcases hrs with hold | hnew'
      · exact hunsent rs hold
      · obtain ⟨job, r, hjob, -⟩ := (hnew j rs).mp hnew'
        rw [hnone] at hjob
        cases hjob

/-- What a call does in a tracker. -/
structure TrackerCall.Effect (c : TrackerCall Payload) (t : JobTracker Payload) : Prop where
  /-- It sends the results of exactly the jobs whose last worker it answers. -/
  sent : ∃ new, (c.run t).2.sent = t.sent ++ new ∧ ∀ j rs, (j, rs) ∈ new ↔
    ∃ job r, t.job? j = some job ∧ c.Answers j r ∧ job.registered = ∅ ∧
      job.pending = {r.workerId} ∧ rs = (job.answer r).values
  /-- When it returns an error it changes nothing. -/
  failed : ∀ e, (c.run t).1 = .error e → (c.run t).2 = t
  /-- It leaves the other jobs as they are. -/
  others : ∀ j, c.jobId? = some j → ∀ j', j' ≠ j → (c.run t).2.job? j' = t.job? j'
  registerJob : ∀ j jobType, c = .registerJob j jobType → (c.run t).2.job? j = some ⟨jobType.workers, ∅, ∅⟩
  /-- A registered worker of a tracked job becomes a pending one, and any other is an error. -/
  setToPending : ∀ j w, c = .setToPending j w →
    ((c.run t).1 = .ok () ↔ ∃ job, t.job? j = some job ∧ w ∈ job.registered) ∧
    ∀ job, t.job? j = some job → w ∈ job.registered →
      (c.run t).2.job? j = some ⟨job.registered.erase w, insert w job.pending, job.results⟩
  /-- The answer of a pending worker of a tracked job is taken, and any other is an error. -/
  recordResponse : ∀ r, c = .recordResponse r →
    ((c.run t).1 = .ok () ↔ ∃ job, t.job? r.jobId = some job ∧ r.workerId ∈ job.pending) ∧
    ∀ job, t.job? r.jobId = some job → r.workerId ∈ job.pending → (c.run t).2.job? r.jobId = job.afterAnswer r
  /-- The jobs that the worker has pending and does not report are answered, and no others. -/
  validatePendingJobs : ∀ w l, c = .validatePendingJobs w l → ∀ j, (c.run t).2.job? j =
    (t.job? j).bind fun job =>
      if w ∈ job.pending ∧ j ∉ l then job.afterAnswer (lostResponse w j) else some job
  /-- A tracked job is removed and its pending workers are returned, and any other is an error. -/
  cancelJob : ∀ j, c = .cancelJob j → (c.run t).2.job? j = none ∧
    ((∃ job, t.job? j = some job ∧ (t.cancelJob j).1 = .ok (job.pending.sort (· ≤ ·))) ∨
      t.job? j = none ∧ ∃ e, (c.run t).1 = .error e)

namespace TrackerCall

/-- The jobs whose results a call sends. -/
theorem run_sent_iff (c : TrackerCall Payload) (t : JobTracker Payload) :
    ∃ new, (c.run t).2.sent = t.sent ++ new ∧ ∀ j rs, (j, rs) ∈ new ↔
      ∃ job r, t.job? j = some job ∧ c.Answers j r ∧ job.registered = ∅ ∧
        job.pending = {r.workerId} ∧ rs = (job.answer r).values := by
  obtain ⟨new, hsent, -, hnew⟩ := c.run_sent t
  refine ⟨new, hsent, fun j rs => ?_⟩
  rw [hnew]
  refine exists_congr fun job => exists_congr fun r => and_congr_right fun hjob => ?_
  refine and_congr_right fun hans => ?_
  rw [PendingJob.mem_sentByAnswer, hans.jobId_eq]
  constructor
  · rintro ⟨hw, -, hrs, hpend, hreg⟩
    refine ⟨hreg, ?_, hrs⟩
    have hpend : job.pending.erase r.workerId = ∅ := hpend
    rw [← Finset.insert_erase hw, hpend]
    rfl
  · rintro ⟨hreg, hpend, hrs⟩
    refine ⟨by simp [hpend], rfl, hrs, ?_, hreg⟩
    simp [PendingJob.answer, hpend]

/-- A call for one job leaves the others as they are. -/
theorem run_others (c : TrackerCall Payload) (t : JobTracker Payload) {j j' : JobId} (hj : c.jobId? = some j)
    (hne : j' ≠ j) : (c.run t).2.job? j' = t.job? j' := by
  rcases c.run_job?_cases t j' with hsame | ⟨_, rfl, -⟩ | ⟨_, _, rfl, -⟩ | ⟨r, _, hans, -⟩ | ⟨rfl, -⟩
  · exact hsame
  · exact absurd (Option.some.inj hj) hne
  · exact absurd (Option.some.inj hj) hne
  · cases c with
    | recordResponse r' =>
      obtain ⟨rfl, rfl⟩ := hans
      exact absurd (Option.some.inj hj) hne
    | validatePendingJobs w l => cases hj
    | _ => exact hans.elim
  · exact absurd (Option.some.inj hj) hne

theorem effect (c : TrackerCall Payload) (t : JobTracker Payload) : c.Effect t where
  sent := c.run_sent_iff t
  failed _ := c.run_error t
  others _ hj _ hne := c.run_others t hj hne
  registerJob := by
    rintro j jobType rfl
    exact (JobTracker.job?_insert _ _ _ _).trans (if_pos rfl)
  setToPending := by
    rintro j w rfl
    rcases t.setToPending_spec j w with ⟨job, hjob, hw, hok, -, hjobs⟩ | ⟨hno, msg, herr⟩
    · refine ⟨⟨fun _ => ⟨job, hjob, hw⟩, fun _ => hok⟩, fun job' hjob' _ => ?_⟩
      rw [hjob] at hjob'
      cases hjob'
      exact (hjobs j).trans (if_pos rfl)
    · refine ⟨⟨fun h => ?_, fun ⟨job, hjob, hw⟩ => absurd hw (hno job hjob)⟩, fun job hjob hw => ?_⟩
      · rw [run, herr] at h
        cases h
      · exact absurd hw (hno job hjob)
  recordResponse := by
    rintro r rfl
    rcases t.recordResponse_spec r with ⟨job, hjob, hw, hok, -, hjobs⟩ | ⟨hno, msg, herr⟩
    · refine ⟨⟨fun _ => ⟨job, hjob, hw⟩, fun _ => hok⟩, fun job' hjob' _ => ?_⟩
      rw [hjob] at hjob'
      cases hjob'
      exact (hjobs r.jobId).trans (if_pos rfl)
    · refine ⟨⟨fun h => ?_, fun ⟨job, hjob, hw⟩ => absurd hw (hno job hjob)⟩, fun job hjob hw => ?_⟩
      · rw [run, herr] at h
        cases h
      · exact absurd hw (hno job hjob)
  validatePendingJobs := by
    rintro w l rfl j
    exact (t.validatePendingJobs_spec w l).1 j
  cancelJob := by
    rintro j rfl
    rcases t.cancelJob_spec j with ⟨job, hjob, hok, -, hjobs⟩ | ⟨hnone, msg, herr⟩
    · exact ⟨(hjobs j).trans (if_pos rfl), Or.inl ⟨job, hjob, hok⟩⟩
    · rw [run, herr]
      exact ⟨hnone, Or.inr ⟨hnone, _, rfl⟩⟩

end TrackerCall

/-- **Job tracker bookkeeping.** After any calls with distinct job ids: the workers of every tracked
job are split into registered, pending and answered ones; no job sent its results twice, and what it
sent holds one answer of each of its workers. A registered job is tracked until its results are sent,
or until a call cancels it. Whatever call comes next does what `TrackerCall.Effect` says: it registers
a job, moves a worker, takes an answer or cancels a job, sends the results of exactly the jobs whose
last worker it answers, changes nothing when it returns an error, and touches only its own job, except
that `validate_pending_jobs` answers the jobs the worker lost. -/
theorem jobTracker_bookkeeping (calls : List (TrackerCall Payload))
    (hids : ((registrations calls).map Prod.fst).Nodup) :
    let t := runCalls calls .new
    (∀ j job, t.job? j = some job → ∃ ws, (j, ws) ∈ registrations calls ∧ JobInv ws j job) ∧
    (t.sent.map Prod.fst).Nodup ∧
    (∀ j rs, (j, rs) ∈ t.sent →
      t.job? j = none ∧ ∃ ws, (j, ws) ∈ registrations calls ∧ AnsweredBy ws j rs) ∧
    (∀ j ws, (j, ws) ∈ registrations calls → ¬ Cancelled calls j →
      (∃ job, t.job? j = some job) ∨ ∃ rs, (j, rs) ∈ t.sent) ∧
    (∀ j, Cancelled calls j → t.job? j = none ∧ ∀ rs, (j, rs) ∉ t.sent) ∧
    ∀ c : TrackerCall Payload, c.Effect t := by
  intro t
  have h := runCalls_inv calls hids
  refine ⟨h.tracked, h.once, h.sent, fun j ws hreg hlive => ?_, fun j => not_tracked_of_cancelled calls hids,
    fun c => c.effect t⟩
  rcases tracked_or_sent calls hreg hlive with htracked | hsent
  · exact Or.inl (Option.isSome_iff_exists.mp htracked)
  · exact Or.inr hsent

/-- Two jobs of two workers; the second one is answered by both, by one of them through a loss, and the first one is
cancelled. -/
def twoJobs : List (TrackerCall Nat) :=
  [.registerJob 0 (.scatterGather {0, 1}), .registerJob 1 (.broadcast 2), .setToPending 0 1, .setToPending 1 1,
    .setToPending 1 0, .recordResponse ⟨1, 0, .ok 7⟩, .validatePendingJobs 1 [0], .cancelJob 0]

theorem jobTracker_bookkeeping_two_jobs :
    (runCalls twoJobs .new).sent = [(1, [lostResponse 1 1, ⟨1, 0, .ok 7⟩])] ∧
    AnsweredBy (Finset.Iio 2) 1 [(lostResponse 1 1 : WorkerRsp Nat), ⟨1, 0, .ok 7⟩] ∧
    (runCalls twoJobs .new).job? 0 = none ∧
    TrackerCall.Effect (.setToPending 0 0) (runCalls (twoJobs.take 7) .new) := by
  have h := jobTracker_bookkeeping twoJobs (by decide)
  have hsent : (runCalls twoJobs .new).sent = [(1, [lostResponse 1 1, ⟨1, 0, .ok 7⟩])] := by decide
  refine ⟨hsent, ?_, ?_, (jobTracker_bookkeeping (twoJobs.take 7) (by decide)).2.2.2.2.2 _⟩
  · obtain ⟨-, ws, hws, hall⟩ := h.2.2.1 1 _ (by rw [hsent]; exact List.mem_singleton_self _)
    have hregs : registrations twoJobs = [(0, {0, 1}), (1, Finset.Iio 2)] := rfl
    rw [hregs] at hws
    simp only [List.mem_cons, Prod.mk.injEq, List.not_mem_nil, or_false] at hws
    rcases hws with ⟨h01, -⟩ | ⟨-, rfl⟩
    · exact absurd h01 (by decide)
    · exact hall
  · exact (h.2.2.2.2.1 0 ⟨twoJobs.take 7, [], rfl, by decide⟩).1

end AmpcCommon.Workpool
