import AmpcCommon.Workpool.Connection
import AmpcCommon.Workpool.Proofs.JobTrackerProofs

/-!
# The invariant of a worker and its manager

`PairInv` says where a job can be on its way to the worker and where its response can be on the way back,
and what the snapshot of the handshake says about both. It does not depend on the job tracker, and every
step of the pair keeps it.
-/

namespace AmpcCommon.Workpool

variable {Payload : Type} {w : WorkerId} {p : Pair Payload}

/-- A `Job` message of worker `w`. -/
def IsJobOf (w : WorkerId) (m : NetworkValue Payload) : Prop := ∃ j payload, m = .job j w payload

@[simp] theorem jobIds_nil : jobIds ([] : List (NetworkValue Payload)) = [] := rfl

@[simp] theorem jobIds_append (l l' : List (NetworkValue Payload)) :
    jobIds (l ++ l') = jobIds l ++ jobIds l' :=
  List.filterMap_append

@[simp] theorem jobIds_job (j : JobId) (payload : Payload) (l : List (NetworkValue Payload)) :
    jobIds (.job j w payload :: l) = j :: jobIds l := rfl

@[simp] theorem jobIds_request (l : List (NetworkValue Payload)) :
    jobIds (.pendingJobsRequest w :: l) = jobIds l := rfl

@[simp] theorem jobIds_reply (js : List JobId) (l : List (NetworkValue Payload)) :
    jobIds (.pendingJobsReply w js :: l) = jobIds l := rfl

theorem jobIds_sublist {l l' : List (NetworkValue Payload)} (h : l.Sublist l') :
    (jobIds l).Sublist (jobIds l') :=
  h.filterMap _

/-- The manager has connected and has not finished the reconciliation yet. -/
def MgrPhase.Handshaking : MgrPhase → Prop
  | .connecting | .traffic => False
  | _ => True

namespace Pair

/-- The jobs that were taken for writing to the worker and are not lost before it. -/
def sent (p : Pair Payload) : List JobId := p.handed ++ jobIds p.down ++ jobIds p.mgrBatch

/-- The jobs at the worker whose responses have not been read by the manager. -/
def unanswered (p : Pair Payload) : List JobId :=
  jobIds p.up ++ jobIds p.workerBatch ++ jobIds p.rspRx ++ p.jobs.map (·.jobId)

end Pair

/-- The invariant of a pair. -/
structure PairInv (w : WorkerId) (p : Pair Payload) : Prop where
  cmd_jobs : ∀ m ∈ p.cmdRx, IsJobOf w m
  batch_jobs : ∀ m ∈ p.mgrBatch, IsJobOf w m
  rsp_jobs : ∀ m ∈ p.rspRx, IsJobOf w m
  workerBatch_jobs : ∀ m ∈ p.workerBatch, IsJobOf w m
  jobs_worker : ∀ m ∈ p.jobs, m.workerId = w
  /-- After the handshake nothing but jobs is sent to the worker. -/
  down_traffic : p.worker = .traffic → ∀ m ∈ p.down, IsJobOf w m
  down_handshake : p.worker = .handshake → ∀ m ∈ p.down.tail, IsJobOf w m
  /-- The reply of the handshake is the snapshot. -/
  up_msgs : ∀ m ∈ p.up, IsJobOf w m ∨ ∃ w', m = .pendingJobsReply w' p.pendingJobIds
  replied : ∀ l, p.mgr = .replied l → l = p.pendingJobIds
  validating : ∀ l, p.mgr = .validating l → ∀ j ∈ l, j ∉ p.pendingJobIds
  /-- No job is taken twice, and none is on its way twice. -/
  taken_nodup : (p.taken ++ jobIds p.cmdRx).Nodup
  sent_nodup : p.sent.Nodup
  sent_taken : ∀ j ∈ p.sent, j ∈ p.taken
  unanswered_nodup : (p.forwarded ++ p.unanswered).Nodup
  unanswered_handed : ∀ j ∈ p.forwarded ++ p.unanswered, j ∈ p.handed
  /-- What the worker has not taken for writing it reports as pending. -/
  pending : ∀ j ∈ jobIds p.rspRx ++ p.jobs.map (·.jobId), j ∈ p.pendingJobs
  mgrBatch_nil : p.mgr ≠ .traffic → p.mgrBatch = []
  workerBatch_nil : p.worker ≠ .traffic → p.workerBatch = []
  requesting : p.mgr = .requesting → p.worker ≠ .traffic ∧ p.down = []
  /-- Until the reconciliation is over the worker gets no job, and its snapshot tells what it has. -/
  down_jobs : p.mgr.Handshaking → jobIds p.down = []
  unanswered_snapshot : p.mgr.Handshaking → ∀ j ∈ p.unanswered, j ∈ p.pendingJobIds
  snapshot : p.mgr.Handshaking →
    ∀ j ∈ p.pendingJobIds, j ∈ p.pendingJobs ∨ j ∈ p.answered

namespace PairInv

theorem new : PairInv w (Pair.new : Pair Payload) := by
  constructor <;> simp [Pair.new, Pair.sent, Pair.unanswered, MgrPhase.Handshaking]

/-- Messages in flight can get lost, or be read. -/
theorem shrink (h : PairInv w p) (connected : Bool) {down up : List (NetworkValue Payload)}
    (hdown : down.Sublist p.down) (hup : up.Sublist p.up) :
    PairInv w { p with connected := connected, down := down, up := up } := by
  have hsent : (Pair.sent { p with connected := connected, down := down, up := up }).Sublist
      p.sent :=
    ((List.Sublist.refl _).append (jobIds_sublist hdown)).append (List.Sublist.refl _)
  have hback : (Pair.unanswered { p with connected := connected, down := down, up := up }).Sublist
      p.unanswered :=
    (((jobIds_sublist hup).append (List.Sublist.refl _)).append (List.Sublist.refl _)).append
      (List.Sublist.refl _)
  have hall := (List.Sublist.refl p.forwarded).append hback
  exact
    { h with
      down_traffic := fun ht m hm => h.down_traffic ht m (hdown.subset hm)
      down_handshake := fun hs m hm => h.down_handshake hs m (hdown.tail.subset hm)
      up_msgs := fun m hm => h.up_msgs m (hup.subset hm)
      sent_nodup := h.sent_nodup.sublist hsent
      sent_taken := fun j hj => h.sent_taken j (hsent.subset hj)
      unanswered_nodup := h.unanswered_nodup.sublist hall
      unanswered_handed := fun j hj => h.unanswered_handed j (hall.subset hj)
      requesting := fun hr => by
        obtain ⟨hw, hd⟩ := h.requesting hr
        rw [hd] at hdown
        exact ⟨hw, List.sublist_nil.mp hdown⟩
      down_jobs := fun hh => by
        have hd := jobIds_sublist hdown
        rw [h.down_jobs hh] at hd
        exact List.sublist_nil.mp hd
      unanswered_snapshot := fun hh j hj => h.unanswered_snapshot hh j (hback.subset hj) }

theorem closeMgr (h : PairInv w p) : PairInv w p.closeMgr := by
  have h' := h.shrink false (List.Sublist.refl _) (List.nil_sublist p.up)
  have hsent : p.closeMgr.sent.Sublist p.sent := (List.Sublist.refl _).append (List.nil_sublist _)
  exact
    { h' with
      batch_jobs := nofun
      replied := nofun
      validating := nofun
      sent_nodup := h.sent_nodup.sublist hsent
      sent_taken := fun j hj => h.sent_taken j (hsent.subset hj)
      mgrBatch_nil := fun _ => rfl
      requesting := nofun
      down_jobs := fun hh => hh.elim
      unanswered_snapshot := fun hh => hh.elim
      snapshot := fun hh => hh.elim }

theorem closeWorker (h : PairInv w p) : PairInv w p.closeWorker := by
  have h' := h.shrink false (List.nil_sublist p.down) (List.Sublist.refl _)
  have hback : p.closeWorker.unanswered.Sublist p.unanswered :=
    (((List.Sublist.refl _).append (List.nil_sublist _)).append (List.Sublist.refl _)).append
      (List.Sublist.refl _)
  have hall := (List.Sublist.refl p.forwarded).append hback
  exact
    { h' with
      workerBatch_jobs := nofun
      down_traffic := nofun
      down_handshake := nofun
      unanswered_nodup := h.unanswered_nodup.sublist hall
      unanswered_handed := fun j hj => h.unanswered_handed j (hall.subset hj)
      workerBatch_nil := fun _ => rfl
      requesting := fun _ => ⟨nofun, rfl⟩
      unanswered_snapshot := fun hh j hj => h.unanswered_snapshot hh j (hback.subset hj) }

theorem connect (h : PairInv w p) {q : Pair Payload} (hq : p.connect = some q) : PairInv w q := by
  unfold Pair.connect at hq
  split_ifs at hq with hc
  cases hq
  have h' := h.shrink true (List.nil_sublist p.down) (List.nil_sublist p.up)
  have hbatch : p.workerBatch = [] := h.workerBatch_nil (by simp [hc.2])
  have hlive : ∀ j ∈ jobIds p.rspRx ++ p.jobs.map (·.jobId), j ∈ p.pendingJobs := h.pending
  exact
    { h' with
      down_traffic := nofun
      down_handshake := nofun
      up_msgs := nofun
      replied := nofun
      validating := nofun
      mgrBatch_nil := fun _ => h.mgrBatch_nil (by simp [hc.1])
      workerBatch_nil := fun _ => hbatch
      requesting := fun _ => ⟨nofun, rfl⟩
      down_jobs := fun _ => rfl
      unanswered_snapshot := fun _ j hj => by
        rw [Pair.unanswered, hbatch] at hj
        exact hlive j (by simpa using hj)
      snapshot := fun _ j hj => Or.inl hj }

theorem request (h : PairInv w p) (hp : p.mgr = .requesting) :
    PairInv w ({ p with mgr := .awaitingReply }.sendDown (.pendingJobsRequest w)) := by
  obtain ⟨hwt, hdown⟩ := h.requesting hp
  have hh : p.mgr.Handshaking := by simp [hp, MgrPhase.Handshaking]
  have h' : PairInv w { p with mgr := .awaitingReply } :=
    { h with
      replied := nofun
      validating := nofun
      mgrBatch_nil := fun _ => h.mgrBatch_nil (by simp [hp])
      requesting := nofun
      down_jobs := fun _ => h.down_jobs hh
      unanswered_snapshot := fun _ => h.unanswered_snapshot hh
      snapshot := fun _ => h.snapshot hh }
  unfold Pair.sendDown
  split_ifs
  · have hsent : Pair.sent { p with
        mgr := .awaitingReply, down := p.down ++ [.pendingJobsRequest w] } = p.sent := by
      simp [Pair.sent]
    exact
      { h' with
        down_traffic := fun ht => absurd ht hwt
        down_handshake := fun _ m hm => by simp [hdown] at hm
        sent_nodup := by rw [hsent]; exact h.sent_nodup
        sent_taken := by rw [hsent]; exact h.sent_taken
        requesting := nofun
        down_jobs := fun _ => by simp [hdown] }
  · exact h'

/-- A phase of the reconciliation is followed by another one. -/
theorem setMgr (h : PairInv w p) (hp : p.mgr.Handshaking)
    {mgr : MgrPhase} (hreq : mgr ≠ .requesting)
    (hrep : ∀ l, mgr = .replied l → l = p.pendingJobIds)
    (hval : ∀ l, mgr = .validating l → ∀ j ∈ l, j ∉ p.pendingJobIds) :
    PairInv w { p with mgr := mgr } := by
  have hnt : p.mgr ≠ .traffic := by
    intro ht
    rw [ht] at hp
    exact hp
  exact
    { h with
      replied := hrep
      validating := hval
      mgrBatch_nil := fun _ => h.mgrBatch_nil hnt
      requesting := fun hq => absurd hq hreq
      down_jobs := fun _ => h.down_jobs hp
      unanswered_snapshot := fun _ => h.unanswered_snapshot hp
      snapshot := fun _ => h.snapshot hp }

theorem readReply (h : PairInv w p) (hp : p.mgr = .awaitingReply) {w' : WorkerId} {l : List JobId}
    {up : List (NetworkValue Payload)} (hup : p.up = .pendingJobsReply w' l :: up) :
    PairInv w { p with mgr := .replied l, up := up } := by
  have hl : l = p.pendingJobIds := by
    rcases h.up_msgs (.pendingJobsReply w' l) (by simp [hup]) with ⟨_, _, he⟩ | ⟨_, he⟩
    · cases he
    · cases he
      rfl
  have hsub : up.Sublist p.up := by
    rw [hup]
    exact List.sublist_cons_self _ _
  refine (h.shrink p.connected (List.Sublist.refl p.down) hsub).setMgr ?_ nofun ?_ nofun
  · show p.mgr.Handshaking
    rw [hp]
    trivial
  · intro l' hl'
    cases hl'
    exact hl

theorem mgrTake (h : PairInv w p) (hp : p.mgr = .traffic) {m : NetworkValue Payload}
    {cmdRx : List (NetworkValue Payload)} (hcmd : p.cmdRx = m :: cmdRx) :
    PairInv w { p with
      cmdRx := cmdRx
      mgrBatch := p.mgrBatch ++ [m]
      taken := p.taken ++ jobIds [m] } := by
  obtain ⟨j, payload, rfl⟩ := h.cmd_jobs m (by simp [hcmd])
  have htaken := h.taken_nodup
  rw [hcmd, jobIds_job] at htaken
  have hj : j ∉ p.taken := fun hj => (List.disjoint_of_nodup_append htaken) hj (by simp)
  have hsent : Pair.sent { p with
      cmdRx := cmdRx
      mgrBatch := p.mgrBatch ++ [.job j w payload]
      taken := p.taken ++ jobIds [.job j w payload] } = p.sent ++ [j] := by
    simp [Pair.sent]
  have hnt : ∀ {q : Prop}, p.mgr.Handshaking → q := by
    intro q hh
    rw [hp] at hh
    exact hh.elim
  exact
    { h with
      cmd_jobs := fun m hm => h.cmd_jobs m (by simp [hcmd, hm])
      batch_jobs := fun m hm => by
        rcases List.mem_append.mp hm with hm | hm
        · exact h.batch_jobs m hm
        · exact ⟨j, payload, List.mem_singleton.mp hm⟩
      taken_nodup := by simpa using htaken
      sent_nodup := by
        rw [hsent]
        exact h.sent_nodup.append (List.nodup_singleton j) fun i hi hij => by
          cases List.mem_singleton.mp hij
          exact hj (h.sent_taken j hi)
      sent_taken := fun i hi => by
        rw [hsent] at hi
        rcases List.mem_append.mp hi with hi | hi
        · exact List.mem_append_left _ (h.sent_taken i hi)
        · exact List.mem_append_right _ hi
      mgrBatch_nil := fun hne => absurd hp hne }

theorem mgrWrite (h : PairInv w p) (hp : p.mgr = .traffic) {m : NetworkValue Payload}
    {batch : List (NetworkValue Payload)} (hbatch : p.mgrBatch = m :: batch) :
    PairInv w ({ p with mgrBatch := batch }.sendDown m) := by
  obtain ⟨j, payload, rfl⟩ := h.batch_jobs m (by simp [hbatch])
  have hsent : (Pair.sent { p with mgrBatch := batch }).Sublist p.sent := by
    refine (List.Sublist.refl _).append (jobIds_sublist ?_)
    rw [hbatch]
    exact List.sublist_cons_self _ _
  have h' : PairInv w { p with mgrBatch := batch } :=
    { h with
      batch_jobs := fun m hm => h.batch_jobs m (by simp [hbatch, hm])
      sent_nodup := h.sent_nodup.sublist hsent
      sent_taken := fun i hi => h.sent_taken i (hsent.subset hi)
      mgrBatch_nil := fun hne => absurd hp hne }
  unfold Pair.sendDown
  split_ifs
  · have hsent' : Pair.sent { p with
        mgrBatch := batch, down := p.down ++ [.job j w payload] } = p.sent := by
      simp [Pair.sent, hbatch]
    have hjob : ∀ m, m ∈ [NetworkValue.job j w payload] → IsJobOf w m := fun m hm =>
      ⟨j, payload, List.mem_singleton.mp hm⟩
    exact
      { h' with
        down_traffic := fun ht m hm => by
          rcases List.mem_append.mp hm with hm | hm
          · exact h.down_traffic ht m hm
          · exact hjob m hm
        down_handshake := fun hs m hm => by
          rw [List.tail_append] at hm
          split_ifs at hm
          · exact hjob m (List.mem_of_mem_tail hm)
          · rcases List.mem_append.mp hm with hm | hm
            · exact h.down_handshake hs m hm
            · exact hjob m hm
        sent_nodup := by rw [hsent']; exact h.sent_nodup
        sent_taken := by rw [hsent']; exact h.sent_taken
        requesting := fun hr => by
          rw [hp] at hr
          cases hr
        down_jobs := fun hh => by
          rw [hp] at hh
          exact hh.elim }
  · exact h'

theorem validated (h : PairInv w p) : PairInv w { p with mgr := .traffic } :=
  { h with
    replied := nofun
    validating := nofun
    mgrBatch_nil := fun hne => absurd rfl hne
    requesting := nofun
    down_jobs := fun hh => hh.elim
    unanswered_snapshot := fun hh => hh.elim
    snapshot := fun hh => hh.elim }

theorem forward (h : PairInv w p) {m : NetworkValue Payload} {up : List (NetworkValue Payload)}
    (hup : p.up = m :: up) : PairInv w ({ p with up := up }.leaderForwardInboundMsg m).1 := by
  have hsub : up.Sublist p.up := by
    rw [hup]
    exact List.sublist_cons_self _ _
  have h' := h.shrink p.connected (List.Sublist.refl p.down) hsub
  rcases h.up_msgs m (by simp [hup]) with ⟨j, payload, rfl⟩ | ⟨w', rfl⟩
  · have hall : (p.forwarded ++ [j]) ++ Pair.unanswered { p with up := up } =
        p.forwarded ++ p.unanswered := by
      simp [Pair.unanswered, hup]
    exact
      { h' with
        unanswered_nodup := by
          have := h.unanswered_nodup
          rw [← hall] at this
          exact this
        unanswered_handed := fun i hi => h.unanswered_handed i (by rw [← hall]; exact hi) }
  · exact h'

theorem answer (h : PairInv w p) (hp : p.worker = .handshake) {w' : WorkerId}
    {down : List (NetworkValue Payload)} (hdown : p.down = .pendingJobsRequest w' :: down) :
    PairInv w ({ p with worker := .traffic, down := down }.sendUp
      (.pendingJobsReply w' p.pendingJobIds)) := by
  have hsub : down.Sublist p.down := by
    rw [hdown]
    exact List.sublist_cons_self _ _
  have h' : PairInv w { p with worker := .traffic, down := down } :=
    { h.shrink p.connected hsub (List.Sublist.refl p.up) with
      down_traffic := fun _ m hm => h.down_handshake hp m (by rw [hdown]; exact hm)
      down_handshake := nofun
      workerBatch_nil := fun hne => absurd rfl hne
      requesting := fun hr => by
        have := (h.requesting hr).2
        rw [hdown] at this
        cases this }
  unfold Pair.sendUp
  split_ifs
  · have hback : Pair.unanswered { p with
        worker := .traffic, down := down,
        up := p.up ++ [.pendingJobsReply w' p.pendingJobIds] } = p.unanswered := by
      simp [Pair.unanswered]
    exact
      { h' with
        up_msgs := fun m hm => by
          rcases List.mem_append.mp hm with hm | hm
          · exact h.up_msgs m hm
          · exact Or.inr ⟨w', List.mem_singleton.mp hm⟩
        unanswered_nodup := by rw [hback]; exact h.unanswered_nodup
        unanswered_handed := by rw [hback]; exact h.unanswered_handed
        unanswered_snapshot := by rw [hback]; exact h.unanswered_snapshot }
  · exact h'

theorem workerTake (h : PairInv w p) (hp : p.worker = .traffic) {m : NetworkValue Payload}
    {rspRx : List (NetworkValue Payload)} (hrsp : p.rspRx = m :: rspRx) :
    PairInv w ({ p with rspRx := rspRx, workerBatch := p.workerBatch ++ [m] }.workerHook m) := by
  obtain ⟨j, payload, rfl⟩ := h.rsp_jobs m (by simp [hrsp])
  set q := Pair.workerHook { p with
    rspRx := rspRx, workerBatch := p.workerBatch ++ [.job j w payload] } (.job j w payload) with hq
  have hback : q.unanswered = p.unanswered := by
    simp [hq, Pair.unanswered, Pair.workerHook, hrsp]
  have hrest : (j :: (jobIds rspRx ++ p.jobs.map (·.jobId))).Nodup := by
    have := h.unanswered_nodup
    rw [Pair.unanswered, hrsp, jobIds_job] at this
    exact (this.sublist (List.sublist_append_right _ _)).sublist
      (by simp only [List.append_assoc, List.cons_append]
          exact (List.sublist_append_right _ _).trans (List.sublist_append_right _ _))
  exact
    { h with
      rsp_jobs := fun m hm => h.rsp_jobs m (by simp [hrsp]; exact Or.inr hm)
      workerBatch_jobs := fun m hm => by
        rcases List.mem_append.mp hm with hm | hm
        · exact h.workerBatch_jobs m hm
        · exact ⟨j, payload, List.mem_singleton.mp hm⟩
      unanswered_nodup := by rw [hback]; exact h.unanswered_nodup
      unanswered_handed := by rw [hback]; exact h.unanswered_handed
      pending := fun i hi => by
        have hij : i ≠ j := fun he => (List.nodup_cons.mp hrest).1 (he ▸ hi)
        have hmem := h.pending i (by
          rw [hrsp, jobIds_job]
          exact List.mem_cons_of_mem _ hi)
        exact List.mem_filter.mpr ⟨hmem, by simpa using hij⟩
      workerBatch_nil := fun hne => absurd hp hne
      unanswered_snapshot := by rw [hback]; exact h.unanswered_snapshot
      snapshot := fun hh i hi => by
        by_cases hij : i = j
        · exact Or.inr (List.mem_append_right _ (by simp [hij]))
        · rcases h.snapshot hh i hi with hmem | hmem
          · exact Or.inl (List.mem_filter.mpr ⟨hmem, by simpa using hij⟩)
          · exact Or.inr (List.mem_append_left _ hmem) }

theorem workerWrite (h : PairInv w p) (hp : p.worker = .traffic) {m : NetworkValue Payload}
    {batch : List (NetworkValue Payload)} (hbatch : p.workerBatch = m :: batch) :
    PairInv w ({ p with workerBatch := batch }.sendUp m) := by
  obtain ⟨j, payload, rfl⟩ := h.workerBatch_jobs m (by simp [hbatch])
  have hback : (Pair.unanswered { p with workerBatch := batch }).Sublist p.unanswered := by
    refine (((List.Sublist.refl _).append (jobIds_sublist ?_)).append (List.Sublist.refl _)).append
      (List.Sublist.refl _)
    rw [hbatch]
    exact List.sublist_cons_self _ _
  have hall := (List.Sublist.refl p.forwarded).append hback
  have h' : PairInv w { p with workerBatch := batch } :=
    { h with
      workerBatch_jobs := fun m hm => h.workerBatch_jobs m (by simp [hbatch, hm])
      unanswered_nodup := h.unanswered_nodup.sublist hall
      unanswered_handed := fun i hi => h.unanswered_handed i (hall.subset hi)
      workerBatch_nil := fun hne => absurd hp hne
      unanswered_snapshot := fun hh i hi => h.unanswered_snapshot hh i (hback.subset hi) }
  unfold Pair.sendUp
  split_ifs
  · have hback' : Pair.unanswered { p with
        workerBatch := batch, up := p.up ++ [.job j w payload] } = p.unanswered := by
      simp [Pair.unanswered, hbatch]
    exact
      { h' with
        up_msgs := fun m hm => by
          rcases List.mem_append.mp hm with hm | hm
          · exact h.up_msgs m hm
          · exact Or.inl ⟨j, payload, List.mem_singleton.mp hm⟩
        unanswered_nodup := by rw [hback']; exact h.unanswered_nodup
        unanswered_handed := by rw [hback']; exact h.unanswered_handed
        unanswered_snapshot := by rw [hback']; exact h.unanswered_snapshot }
  · exact h'

theorem receive (h : PairInv w p) (hp : p.worker = .traffic) {m : NetworkValue Payload}
    {down : List (NetworkValue Payload)} (hdown : p.down = m :: down) :
    PairInv w ({ p with down := down }.workerHandleInboundMsg m) := by
  obtain ⟨j, payload, rfl⟩ := h.down_traffic hp m (by simp [hdown])
  have hsub : down.Sublist p.down := by
    rw [hdown]
    exact List.sublist_cons_self _ _
  have hnh : ¬ p.mgr.Handshaking := by
    intro hh
    have := h.down_jobs hh
    rw [hdown, jobIds_job] at this
    cases this
  have h' : PairInv w { p with down := down, pendingJobs := p.pendingJobs.insert j } :=
    { h.shrink p.connected hsub (List.Sublist.refl p.up) with
      pending := fun i hi => List.mem_insert_of_mem (h.pending i hi)
      snapshot := fun hh => absurd hh hnh }
  unfold Pair.workerHandleInboundMsg
  dsimp only
  split_ifs
  · have hsent : Pair.sent { p with
        down := down, handed := p.handed ++ [j] } = p.sent := by
      simp [Pair.sent, hdown]
    have hback : Pair.unanswered { p with jobs := p.jobs ++ [⟨j, w⟩] } = p.unanswered ++ [j] := by
      simp [Pair.unanswered]
    have hj : j ∉ p.handed := by
      intro hj
      have := h.sent_nodup
      rw [Pair.sent, hdown, jobIds_job] at this
      exact List.disjoint_of_nodup_append (List.nodup_append.mp this).1 hj (by simp)
    exact
      { h' with
        jobs_worker := fun m hm => by
          rcases List.mem_append.mp hm with hm | hm
          · exact h.jobs_worker m hm
          · rw [List.mem_singleton.mp hm]
        sent_nodup := by
          have := h.sent_nodup
          rw [← hsent] at this
          exact this
        sent_taken := fun i hi => h.sent_taken i (by rw [← hsent]; exact hi)
        unanswered_nodup := by
          have : (p.forwarded ++ (p.unanswered ++ [j])).Nodup := by
            rw [← List.append_assoc]
            refine h.unanswered_nodup.append (List.nodup_singleton j) fun i hi hij => ?_
            cases List.mem_singleton.mp hij
            exact hj (h.unanswered_handed j hi)
          rw [← hback] at this
          exact this
        unanswered_handed := fun i hi => by
          have hi' : i ∈ p.forwarded ++ (p.unanswered ++ [j]) := by
            rw [← hback]
            exact hi
          rw [← List.append_assoc] at hi'
          rcases List.mem_append.mp hi' with hi' | hi'
          · exact List.mem_append_left _ (h.unanswered_handed i hi')
          · exact List.mem_append_right _ hi'
        pending := fun i hi => by
          simp only [List.map_append, ← List.append_assoc] at hi
          rcases List.mem_append.mp hi with hi | hi
          · exact List.mem_insert_of_mem (h.pending i hi)
          · cases List.mem_singleton.mp hi
            exact List.mem_insert_self
        unanswered_snapshot := fun hh => absurd hh hnh }
  · exact h'.closeWorker

/-- An answered or dropped job of the application. -/
theorem eraseJob (h : PairInv w p) (msg : Msg) : PairInv w { p with jobs := p.jobs.erase msg } := by
  have hjobs : ((p.jobs.erase msg).map (·.jobId)).Sublist (p.jobs.map (·.jobId)) :=
    List.erase_sublist.map _
  have hback : (Pair.unanswered { p with jobs := p.jobs.erase msg }).Sublist p.unanswered :=
    (List.Sublist.refl _).append hjobs
  have hall := (List.Sublist.refl p.forwarded).append hback
  exact
    { h with
      jobs_worker := fun m hm => h.jobs_worker m (List.mem_of_mem_erase hm)
      unanswered_nodup := h.unanswered_nodup.sublist hall
      unanswered_handed := fun i hi => h.unanswered_handed i (hall.subset hi)
      pending := fun i hi => h.pending i (((List.Sublist.refl _).append hjobs).subset hi)
      unanswered_snapshot := fun hh i hi => h.unanswered_snapshot hh i (hback.subset hi) }

theorem sendResult (h : PairInv w p) {msg : Msg} (hmsg : msg ∈ p.jobs) (payload : Payload) :
    PairInv w { p with
      jobs := p.jobs.erase msg
      rspRx := p.rspRx ++ [.job msg.jobId msg.workerId payload] } := by
  set q : Pair Payload := { p with
    jobs := p.jobs.erase msg
    rspRx := p.rspRx ++ [.job msg.jobId msg.workerId payload] } with hq
  have hworker := h.jobs_worker msg hmsg
  have hjobs : (jobIds q.rspRx ++ q.jobs.map (·.jobId)).Perm
      (jobIds p.rspRx ++ p.jobs.map (·.jobId)) := by
    have := (List.perm_cons_erase hmsg).map (·.jobId)
    simpa [hq] using this.symm.append_left (jobIds p.rspRx)
  have hback : q.unanswered.Perm p.unanswered := by
    simpa [Pair.unanswered] using hjobs.append_left (jobIds p.up ++ jobIds p.workerBatch)
  have hall := hback.append_left p.forwarded
  exact
    { h.eraseJob msg with
      rsp_jobs := fun m hm => by
        rcases List.mem_append.mp hm with hm | hm
        · exact h.rsp_jobs m hm
        · rw [List.mem_singleton.mp hm, hworker]
          exact ⟨msg.jobId, payload, rfl⟩
      unanswered_nodup := hall.nodup_iff.mpr h.unanswered_nodup
      unanswered_handed := fun i hi => h.unanswered_handed i (hall.subset hi)
      pending := fun i hi => h.pending i (hjobs.subset hi)
      unanswered_snapshot := fun hh i hi => h.unanswered_snapshot hh i (hback.subset hi) }

end PairInv

/-- The jobs that are on their way to the worker, at the worker, or on their way back. -/
def Pair.inflight (p : Pair Payload) : List JobId :=
  jobIds p.mgrBatch ++ jobIds p.down ++ p.unanswered

/-- Everything a step of a pair can do that the leader sees. -/
inductive PairChange (w : WorkerId) (t : JobTracker Payload) (p : Pair Payload) :
    PairAction Payload → Pair Payload → Effect Payload → Prop where
  /-- Jobs and responses move on or get lost, and a reconciliation may begin. -/
  | quiet (a : PairAction Payload) (q : Pair Payload) (taken : q.taken = p.taken)
      (cmdRx : q.cmdRx = p.cmdRx) (forwarded : q.forwarded = p.forwarded)
      (inflight : ∀ j ∈ q.inflight, j ∈ p.inflight)
      (validating : ∀ l, q.mgr = .validating l →
        p.mgr = .validating l ∧ q.pendingJobIds = p.pendingJobIds ∨
        l = t.droppedJobs w q.pendingJobIds) :
      PairChange w t p a q {}
  | take (j : JobId) (payload : Payload) (cmdRx : List (NetworkValue Payload))
      (hmgr : p.mgr = .traffic) (hcmd : p.cmdRx = .job j w payload :: cmdRx) :
      PairChange w t p .mgrTake
        { p with
          cmdRx := cmdRx
          mgrBatch := p.mgrBatch ++ [.job j w payload]
          taken := p.taken ++ [j] }
        { call := some (.setToPending j w) }
  | lose (j : JobId) (dropped : List JobId) (hmgr : p.mgr = .validating dropped)
      (hj : j ∈ dropped) :
      PairChange w t p (.lose j) { p with mgr := .validating (dropped.erase j) }
        { call := some (.recordResponse (lostResponse w j)) }
  | forward (j : JobId) (payload : Payload) (up : List (NetworkValue Payload))
      (hmgr : p.mgr = .traffic) (hup : p.up = .job j w payload :: up) :
      PairChange w t p .forward { p with up := up, forwarded := p.forwarded ++ [j] }
        { response := some ⟨j, w, .ok payload⟩ }

namespace PairChange

variable {t : JobTracker Payload} {a : PairAction Payload}

/-- A step that leaves the command queue and the phase of the manager alone. -/
theorem ofQuiet {q : Pair Payload} (htaken : q.taken = p.taken) (hcmd : q.cmdRx = p.cmdRx)
    (hfwd : q.forwarded = p.forwarded) (hin : ∀ j ∈ q.inflight, j ∈ p.inflight)
    (hids : q.pendingJobIds = p.pendingJobIds) (hmgr : q.mgr = p.mgr) : PairChange w t p a q {} :=
  .quiet a q htaken hcmd hfwd hin fun _ hl => Or.inl ⟨hmgr ▸ hl, hids⟩

theorem closeMgr : PairChange w t p a p.closeMgr {} := by
  refine .quiet _ _ rfl rfl rfl (fun j hj => ?_) nofun
  simp only [Pair.inflight, Pair.unanswered, Pair.closeMgr, List.mem_append, jobIds_nil] at hj ⊢
  tauto

theorem closeWorker : PairChange w t p a p.closeWorker {} := by
  refine .ofQuiet rfl rfl rfl (fun j hj => ?_) rfl rfl
  simp only [Pair.inflight, Pair.unanswered, Pair.closeWorker, List.mem_append, jobIds_nil] at hj ⊢
  tauto

/-- Messages in flight can get lost, or be read. -/
theorem shrink (connected : Bool) {down up : List (NetworkValue Payload)} (hdown : down.Sublist p.down)
    (hup : up.Sublist p.up) : PairChange w t p a { p with connected := connected, down := down, up := up } {} := by
  refine .ofQuiet rfl rfl rfl (fun j hj => ?_) rfl rfl
  have hd := (jobIds_sublist hdown).subset (a := j)
  have hu := (jobIds_sublist hup).subset (a := j)
  simp only [Pair.inflight, Pair.unanswered, List.mem_append] at hj ⊢
  tauto

/-- A message is written to the worker. -/
theorem sendDown {q : Pair Payload} {m : NetworkValue Payload} (htaken : q.taken = p.taken)
    (hcmd : q.cmdRx = p.cmdRx) (hfwd : q.forwarded = p.forwarded)
    (hin : ∀ j, j ∈ jobIds [m] ∨ j ∈ q.inflight → j ∈ p.inflight)
    (hval : ∀ l, q.mgr = .validating l → p.mgr = .validating l ∧ q.pendingJobIds = p.pendingJobIds) :
    PairChange w t p a (q.sendDown m) {} := by
  unfold Pair.sendDown
  split_ifs
  · refine .quiet _ _ htaken hcmd hfwd (fun j hj => hin j ?_) fun l hl => Or.inl (hval l hl)
    simp only [Pair.inflight, jobIds_append, List.mem_append] at hj ⊢
    tauto
  · exact .quiet _ _ htaken hcmd hfwd (fun j hj => hin j (Or.inr hj)) fun l hl => Or.inl (hval l hl)

/-- A message is written to the manager. -/
theorem sendUp {q : Pair Payload} {m : NetworkValue Payload} (htaken : q.taken = p.taken)
    (hcmd : q.cmdRx = p.cmdRx) (hfwd : q.forwarded = p.forwarded)
    (hin : ∀ j, j ∈ jobIds [m] ∨ j ∈ q.inflight → j ∈ p.inflight)
    (hids : q.pendingJobIds = p.pendingJobIds) (hmgr : q.mgr = p.mgr) : PairChange w t p a (q.sendUp m) {} := by
  unfold Pair.sendUp
  split_ifs
  · refine .ofQuiet htaken hcmd hfwd (fun j hj => hin j ?_) hids hmgr
    simp only [Pair.inflight, Pair.unanswered, jobIds_append, List.mem_append] at hj ⊢
    tauto
  · exact .ofQuiet htaken hcmd hfwd (fun j hj => hin j (Or.inr hj)) hids hmgr

end PairChange

/-- A job of the worker is the one that leaves, or one of the others. -/
theorem mem_jobs_iff {jobs : List Msg} {msg : Msg} (hmsg : msg ∈ jobs) (j : JobId) :
    j ∈ jobs.map (·.jobId) ↔ j = msg.jobId ∨ j ∈ (jobs.erase msg).map (·.jobId) := by
  rw [((List.perm_cons_erase hmsg).map (·.jobId)).mem_iff, List.map_cons, List.mem_cons]

/-- Every step of a pair keeps its invariant and is one of the changes above. -/
theorem PairInv.step (h : PairInv w p) {t : JobTracker Payload} {a : PairAction Payload}
    {q : Pair Payload} {e : Effect Payload} (hs : p.step w t a = some (q, e)) :
    PairInv w q ∧ PairChange w t p a q e := by
  cases a with
  | connect =>
    simp only [Pair.step, Option.map_eq_some_iff, Prod.mk.injEq] at hs
    obtain ⟨q', hq, rfl, rfl⟩ := hs
    refine ⟨h.connect hq, ?_⟩
    unfold Pair.connect at hq
    split_ifs at hq
    cases hq
    refine .quiet _ _ rfl rfl rfl (fun j hj => ?_) nofun
    simp only [Pair.inflight, Pair.unanswered, List.mem_append, jobIds_nil] at hj ⊢
    tauto
  | cut d u =>
    cases hs
    have hdown := List.take_sublist d p.down
    have hup := List.take_sublist u p.up
    exact ⟨h.shrink false hdown hup, .shrink false hdown hup⟩
  | request =>
    simp only [Pair.step] at hs
    split_ifs at hs with hp
    cases hs
    refine ⟨h.request hp, .sendDown rfl rfl rfl (fun j hj => ?_) nofun⟩
    rcases hj with hj | hj
    · cases hj
    · exact hj
  | readReply =>
    simp only [Pair.step] at hs
    split at hs
    next w' l up hp hup =>
      cases hs
      refine ⟨h.readReply hp hup, .quiet _ _ rfl rfl rfl (fun j hj => ?_) nofun⟩
      simpa [Pair.inflight, Pair.unanswered, hup] using hj
    next =>
      cases hs
      exact ⟨h.closeMgr, .closeMgr⟩
    next => cases hs
  | collect =>
    simp only [Pair.step] at hs
    split at hs
    next l hp =>
      cases hs
      have hl := h.replied l hp
      subst hl
      have hh : p.mgr.Handshaking := by simp [hp, MgrPhase.Handshaking]
      refine ⟨h.setMgr hh nofun nofun fun l hl j hj => ?_,
        .quiet _ _ rfl rfl rfl (fun j hj => hj) fun l hl => ?_⟩
      · cases hl
        obtain ⟨-, -, -, hnot⟩ := JobTracker.mem_droppedJobs.mp hj
        exact hnot
      · cases hl
        exact Or.inr rfl
    next => cases hs
  | lose j =>
    simp only [Pair.step] at hs
    split at hs
    next dropped hp =>
      split_ifs at hs with hj
      cases hs
      have hh : p.mgr.Handshaking := by simp [hp, MgrPhase.Handshaking]
      refine ⟨h.setMgr hh nofun nofun fun l hl i hi => ?_, .lose j dropped hp hj⟩
      cases hl
      exact h.validating dropped hp i (List.mem_of_mem_erase hi)
    next => cases hs
  | validated =>
    simp only [Pair.step] at hs
    split_ifs at hs with hp
    cases hs
    exact ⟨h.validated, .quiet _ _ rfl rfl rfl (fun j hj => hj) nofun⟩
  | mgrTake =>
    simp only [Pair.step] at hs
    split at hs
    next m cmdRx hp hcmd =>
      cases hs
      refine ⟨h.mgrTake hp hcmd, ?_⟩
      obtain ⟨j, payload, rfl⟩ := h.cmd_jobs m (by simp [hcmd])
      exact .take j payload cmdRx hp hcmd
    next => cases hs
  | mgrWrite =>
    simp only [Pair.step] at hs
    split at hs
    next m batch hp hbatch =>
      cases hs
      refine ⟨h.mgrWrite hp hbatch, ?_⟩
      obtain ⟨i, payload, rfl⟩ := h.batch_jobs m (by simp [hbatch])
      refine .sendDown rfl rfl rfl (fun j hj => ?_) fun l hl => ⟨hl, rfl⟩
      simp only [Pair.inflight, Pair.unanswered, hbatch, jobIds_job, jobIds_nil, List.mem_append,
        List.mem_cons] at hj ⊢
      tauto
    next => cases hs
  | forward =>
    simp only [Pair.step] at hs
    split at hs
    next m up hp hup =>
      cases hs
      refine ⟨h.forward hup, ?_⟩
      rcases h.up_msgs m (by simp [hup]) with ⟨j, payload, rfl⟩ | ⟨w', rfl⟩
      · exact .forward j payload up hp hup
      · refine .ofQuiet rfl rfl rfl (fun j hj => ?_) rfl rfl
        simpa [Pair.inflight, Pair.unanswered, Pair.leaderForwardInboundMsg, hup] using hj
    next => cases hs
  | mgrClose =>
    simp only [Pair.step] at hs
    split at hs
    next =>
      cases hs
      exact ⟨h.closeMgr, .closeMgr⟩
    next =>
      cases hs
      exact ⟨h.closeMgr, .closeMgr⟩
    next =>
      cases hs
      exact ⟨h.closeMgr, .closeMgr⟩
    next => cases hs
  | answer =>
    simp only [Pair.step] at hs
    split at hs
    next w' down hp hdown =>
      cases hs
      refine ⟨h.answer hp hdown, .sendUp rfl rfl rfl (fun j hj => ?_) rfl rfl⟩
      rcases hj with hj | hj
      · cases hj
      · simpa [Pair.inflight, Pair.unanswered, hdown] using hj
    next =>
      cases hs
      exact ⟨h.closeWorker, .closeWorker⟩
    next => cases hs
  | workerTake =>
    simp only [Pair.step] at hs
    split at hs
    next m rspRx hp hrsp =>
      cases hs
      refine ⟨h.workerTake hp hrsp, ?_⟩
      obtain ⟨i, payload, rfl⟩ := h.rsp_jobs m (by simp [hrsp])
      refine .ofQuiet rfl rfl rfl (fun j hj => ?_) rfl rfl
      simp only [Pair.inflight, Pair.unanswered, Pair.workerHook, hrsp, jobIds_append, jobIds_job,
        jobIds_nil, List.mem_append, List.mem_cons] at hj ⊢
      tauto
    next => cases hs
  | workerWrite =>
    simp only [Pair.step] at hs
    split at hs
    next m batch hp hbatch =>
      cases hs
      refine ⟨h.workerWrite hp hbatch, ?_⟩
      obtain ⟨i, payload, rfl⟩ := h.workerBatch_jobs m (by simp [hbatch])
      refine .sendUp rfl rfl rfl (fun j hj => ?_) rfl rfl
      simp only [Pair.inflight, Pair.unanswered, hbatch, jobIds_job, jobIds_nil, List.mem_append,
        List.mem_cons] at hj ⊢
      tauto
    next => cases hs
  | receive =>
    simp only [Pair.step] at hs
    split at hs
    next m down hp hdown =>
      cases hs
      refine ⟨h.receive hp hdown, ?_⟩
      obtain ⟨i, payload, rfl⟩ := h.down_traffic hp m (by simp [hdown])
      unfold Pair.workerHandleInboundMsg
      dsimp only
      split_ifs
      · refine .ofQuiet rfl rfl rfl (fun j hj => ?_) rfl rfl
        simp only [Pair.inflight, Pair.unanswered, hdown, jobIds_job, List.map_append, List.map_cons,
          List.map_nil, List.mem_append, List.mem_cons] at hj ⊢
        tauto
      · refine .ofQuiet rfl rfl rfl (fun j hj => ?_) rfl rfl
        simp only [Pair.inflight, Pair.unanswered, Pair.closeWorker, hdown, jobIds_job, jobIds_nil,
          List.mem_append, List.mem_cons] at hj ⊢
        tauto
    next => cases hs
  | workerClose =>
    simp only [Pair.step] at hs
    split_ifs at hs
    cases hs
    exact ⟨h.closeWorker, .closeWorker⟩
  | sendResult msg payload =>
    simp only [Pair.step] at hs
    split_ifs at hs with hmsg
    cases hs
    refine ⟨h.sendResult hmsg payload, .ofQuiet rfl rfl rfl (fun j hj => ?_) rfl rfl⟩
    have hjobs := mem_jobs_iff hmsg j
    simp only [Pair.inflight, Pair.unanswered, jobIds_append, jobIds_job, jobIds_nil, List.mem_append,
      List.mem_cons] at hj ⊢
    tauto
  | dropJob msg =>
    simp only [Pair.step] at hs
    split_ifs at hs with hmsg
    cases hs
    refine ⟨h.eraseJob msg, .ofQuiet rfl rfl rfl (fun j hj => ?_) rfl rfl⟩
    have hjobs := mem_jobs_iff hmsg j
    simp only [Pair.inflight, Pair.unanswered, List.mem_append] at hj ⊢
    tauto
  | dropHandle =>
    cases hs
    exact ⟨{ h with cmd_jobs := h.cmd_jobs }, .ofQuiet rfl rfl rfl (fun j hj => hj) rfl rfl⟩

end AmpcCommon.Workpool
