import AmpcCommon.Startup.Lifecycle
import AmpcCommon.Base.Counts
import Mathlib.Data.List.Forall2

/-!
# The life of a statistics server: the flags, the work and the tasks

The flags of a server go one way: the network is cancelled after shutting down was announced, shutting down is announced
after the shutdown has begun and while the server is not ready. Each function keeps this order under interference,
and says what it returns; a server is a sequence of them. -/

namespace AmpcCommon.Lifecycle

open RelyGuarantee RelyGuarantee.Prog

variable {ε α : Type} {s t u : Server ε}

/-! ## What happens beside the server's task -/

def Task.aborted : Task → Bool
  | .running aborted => aborted
  | .finished result => TaskResult.isCancelled result

/-- A task that goes on, or ends. -/
inductive TaskEnds : Task → Task → Prop
  | same (task : Task) : TaskEnds task task
  | ends {aborted : Bool} {result : TaskResult} (h : TaskResult.isCancelled result = true → aborted = true) :
      TaskEnds (.running aborted) (.finished result)

theorem TaskEnds.trans {a b c : Task} (h : TaskEnds a b) (h' : TaskEnds b c) : TaskEnds a c := by
  cases h with
  | same => exact h'
  | ends h =>
    cases h'
    exact TaskEnds.ends h

theorem TaskEnds.aborted {a b : Task} (h : TaskEnds a b) (hb : b.aborted = true) : a.aborted = true := by
  cases h with
  | same => exact hb
  | ends h => exact h hb

/-- All but the flags and the token of the shutdown stays as it is, as far as the tasks do not end. -/
structure Beside (s t : Server ε) : Prop where
  networkCt : t.networkCt = s.networkCt
  now : s.now ≤ t.now
  tasksAborted : t.tasksAborted = s.tasksAborted
  log : t.log = s.log
  joined : t.joined = s.joined
  tasks : List.Forall₂ TaskEnds s.tasks t.tasks

theorem forall₂_taskEnds_refl (tasks : List Task) : List.Forall₂ TaskEnds tasks tasks :=
  List.forall₂_same.mpr fun task _ => TaskEnds.same task

theorem forall₂_taskEnds_trans {as bs cs : List Task} (h : List.Forall₂ TaskEnds as bs)
    (h' : List.Forall₂ TaskEnds bs cs) : List.Forall₂ TaskEnds as cs := by
  induction h generalizing cs with
  | nil => exact h'
  | cons hab _ ih =>
    rcases List.forall₂_cons_left_iff.mp h' with ⟨c, cs', hbc, hrest, rfl⟩
    exact List.Forall₂.cons (hab.trans hbc) (ih hrest)

theorem Beside.refl (s : Server ε) : Beside s s :=
  ⟨rfl, Nat.le_refl _, rfl, rfl, rfl, forall₂_taskEnds_refl s.tasks⟩

theorem Beside.trans (h : Beside s t) (h' : Beside t u) : Beside s u :=
  ⟨h'.networkCt.trans h.networkCt, Nat.le_trans h.now h'.now, h'.tasksAborted.trans h.tasksAborted, h'.log.trans h.log,
    h'.joined.trans h.joined, forall₂_taskEnds_trans h.tasks h'.tasks⟩

/-- What happens beside the server's task: a shutdown begins, tasks end, and time passes. -/
structure Interferes (s t : Server ε) : Prop extends Beside s t where
  ct : s.ct = true → t.ct = true
  readyFlag : t.readyFlag = s.readyFlag
  shuttingDownFlag : t.shuttingDownFlag = s.shuttingDownFlag
  announced : t.announced = s.announced

theorem Interferes.refl (s : Server ε) : Interferes s s := ⟨Beside.refl s, id, rfl, rfl, rfl⟩

theorem Interferes.trans (s t u : Server ε) (h : Interferes s t) (h' : Interferes t u) : Interferes s u :=
  ⟨h.toBeside.trans h'.toBeside, h'.ct ∘ h.ct, h'.readyFlag.trans h.readyFlag,
    h'.shuttingDownFlag.trans h.shuttingDownFlag, h'.announced.trans h.announced⟩

theorem forall₂_taskEnds_set {tasks : List Task} {i : Nat} {a b : Task} (hi : tasks[i]? = some a)
    (h : TaskEnds a b) : List.Forall₂ TaskEnds tasks (tasks.set i b) := by
  induction tasks generalizing i with
  | nil => cases hi
  | cons task tasks ih =>
    cases i with
    | zero =>
      cases hi
      exact List.Forall₂.cons h (forall₂_taskEnds_refl tasks)
    | succ i => exact List.Forall₂.cons (TaskEnds.same task) (ih hi)

theorem interfere_interferes (e : Event) (s t : Server ε) (h : interfere e s = some t) : Interferes s t := by
  cases e with
  | signal =>
    cases h
    exact ⟨⟨rfl, Nat.le_refl _, rfl, rfl, rfl, forall₂_taskEnds_refl s.tasks⟩, fun _ => rfl, rfl, rfl, rfl⟩
  | taskEnds i result =>
    unfold interfere at h
    cases htask : s.tasks[i]? with
    | none => simp [htask] at h
    | some task =>
      cases task with
      | finished r => simp [htask] at h
      | running aborted =>
        simp only [htask] at h
        split at h
        · cases h
        · rename_i hcancelled
          cases h
          have hends : TaskEnds (.running aborted) (.finished result) :=
            TaskEnds.ends fun hc => by simpa [hc] using hcancelled
          exact ⟨⟨rfl, Nat.le_refl _, rfl, rfl, rfl, forall₂_taskEnds_set htask hends⟩, id, rfl, rfl, rfl⟩
  | tick duration =>
    cases h
    exact ⟨⟨rfl, Nat.le_add_right _ _, rfl, rfl, rfl, forall₂_taskEnds_refl s.tasks⟩, id, rfl, rfl, rfl⟩

/-! ## The order of the flags -/

/-- The network is cancelled before tasks are aborted, shutting down is announced before the network is cancelled, and
only during a shutdown and when the server is not ready. -/
structure Ordered (s : Server ε) : Prop where
  aborted : ∀ task ∈ s.tasks, task.aborted = true → s.networkCt = true
  network : s.networkCt = true → s.shuttingDownFlag = true
  shutdown : s.shuttingDownFlag = true → s.ct = true
  unready : s.shuttingDownFlag = true → s.readyFlag = false
  announced : s.shuttingDownFlag = true → s.announced.isSome = true
  announced_le : ∀ time, s.announced = some time → time ≤ s.now

/-- Shutting down has been announced. -/
structure Marked (s : Server ε) : Prop where
  ct : s.ct = true
  readyFlag : s.readyFlag = false
  shuttingDownFlag : s.shuttingDownFlag = true

/-- The flags go forward. -/
structure Advance (s t : Server ε) : Prop where
  ct : s.ct = true → t.ct = true
  networkCt : s.networkCt = true → t.networkCt = true
  shuttingDownFlag : s.shuttingDownFlag = true → t.shuttingDownFlag = true
  ordered : Ordered t

/-- The flags go forward, and the network is left alone. -/
structure Quiet (s t : Server ε) : Prop extends Advance s t where
  network : t.networkCt = s.networkCt

theorem aborted_of_forall₂ {as bs : List Task} (h : List.Forall₂ TaskEnds as bs)
    (hb : ∃ task ∈ bs, task.aborted = true) : ∃ task ∈ as, task.aborted = true := by
  induction h with
  | nil => exact hb
  | cons hab _ ih =>
    obtain ⟨task, hmem, htask⟩ := hb
    rcases List.mem_cons.mp hmem with rfl | hmem
    · exact ⟨_, List.mem_cons_self, hab.aborted htask⟩
    · obtain ⟨task', hmem', htask'⟩ := ih ⟨task, hmem, htask⟩
      exact ⟨task', List.mem_cons_of_mem _ hmem', htask'⟩

theorem Ordered.interferes (h : Ordered s) (hR : Interferes s t) : Ordered t := by
  refine ⟨fun task hmem htask => ?_, fun hn => ?_, fun hs => ?_, fun hs => ?_, fun hs => ?_, fun time htime => ?_⟩
  · obtain ⟨task', hmem', htask'⟩ := aborted_of_forall₂ hR.tasks ⟨task, hmem, htask⟩
    rw [hR.networkCt]
    exact h.aborted task' hmem' htask'
  · rw [hR.networkCt] at hn
    rw [hR.shuttingDownFlag]
    exact h.network hn
  · rw [hR.shuttingDownFlag] at hs
    exact hR.ct (h.shutdown hs)
  · rw [hR.shuttingDownFlag] at hs
    rw [hR.readyFlag]
    exact h.unready hs
  · rw [hR.shuttingDownFlag] at hs
    rw [hR.announced]
    exact h.announced hs
  · rw [hR.announced] at htime
    exact Nat.le_trans (h.announced_le time htime) hR.now

theorem Marked.interferes (h : Marked s) (hR : Interferes s t) : Marked t :=
  ⟨hR.ct h.ct, hR.readyFlag.trans h.readyFlag, hR.shuttingDownFlag.trans h.shuttingDownFlag⟩

/-- Only the flags change. -/
structure Flags (s t : Server ε) : Prop extends Quiet s t where
  tasks : t.tasks = s.tasks
  joined : t.joined = s.joined

theorem Quiet.refl (h : Ordered s) : Quiet s s := ⟨⟨id, id, id, h⟩, rfl⟩

theorem Ordered.init : Ordered (Server.init : Server ε) := by
  refine ⟨fun task hmem => ?_, fun h => ?_, fun h => ?_, fun h => ?_, fun h => ?_, fun time h => ?_⟩
  · cases hmem
  · cases h
  · cases h
  · cases h
  · cases h
  · cases h

/-- What a part of the server's task leaves that has done `log`. -/
structure Did (s t : Server ε) (log : List (ε × Nat)) : Prop where
  ordered : Ordered t
  ct : s.ct = true → t.ct = true
  shuttingDownFlag : s.shuttingDownFlag = true → t.shuttingDownFlag = true
  networkCt : t.networkCt = s.networkCt
  now : s.now ≤ t.now
  announced : ∀ time, s.announced = some time → t.announced = some time
  tasksAborted : t.tasksAborted = s.tasksAborted
  log : t.log = s.log ++ log
  joined : t.joined = s.joined
  tasks : List.Forall₂ TaskEnds s.tasks t.tasks

theorem Did.of_interferes (ht : Ordered t) (h : Interferes s t) : Did s t [] :=
  ⟨ht, h.ct, fun hs => h.shuttingDownFlag.trans hs, h.networkCt, h.now, fun _ ha => h.announced.trans ha,
    h.tasksAborted, by rw [h.log, List.append_nil], h.joined, h.tasks⟩

/-- To announce the shutdown. -/
theorem Did.of_marked (ht : Ordered t) (hmarked : Marked t)
    (hannounced : ∀ time, s.announced = some time → t.announced = some time) (h : Beside s t) : Did s t [] :=
  ⟨ht, fun _ => hmarked.ct, fun _ => hmarked.shuttingDownFlag, h.networkCt, h.now, hannounced, h.tasksAborted,
    by rw [h.log, List.append_nil], h.joined, h.tasks⟩

theorem Did.trans {log log' : List (ε × Nat)} (h : Did s t log) (h' : Did t u log') : Did s u (log ++ log') :=
  ⟨h'.ordered, h'.ct ∘ h.ct, h'.shuttingDownFlag ∘ h.shuttingDownFlag, h'.networkCt.trans h.networkCt,
    Nat.le_trans h.now h'.now, fun time ha => h'.announced time (h.announced time ha),
    h'.tasksAborted.trans h.tasksAborted, by rw [h'.log, h.log, List.append_assoc], h'.joined.trans h.joined,
    forall₂_taskEnds_trans h.tasks h'.tasks⟩

theorem Did.interferes {log : List (ε × Nat)} (h : Did s t log) (hR : Interferes t u) : Did s u log := by
  have h' := h.trans (Did.of_interferes (h.ordered.interferes hR) hR)
  rwa [List.append_nil] at h'

/-- What was announced stays so. -/
theorem Did.marked {log : List (ε × Nat)} (h : Did s t log) (hs : s.shuttingDownFlag = true) : Marked t := by
  have hflag := h.shuttingDownFlag hs
  exact ⟨h.ordered.shutdown hflag, h.ordered.unready hflag, hflag⟩

/-! ## The functions under interference -/

/-- A program keeps the order of the flags and leaves the network alone. -/
abbrev QuietSafe (Q : α → Server ε → Prop) : Code ε α → Server ε → Prop := Safe perform Interferes Quiet Q

section Rules

variable {Q : α → Server ε → Prop}

/-- A poll of the token tells what it is at that moment. -/
theorem isShuttingDown_rule {f : Bool → Code ε α} (hs : Ordered s)
    (h : ∀ t, Interferes s t → Ordered t → QuietSafe Q (f t.ct) t) : QuietSafe Q (isShuttingDown >>= f) s := by
  refine Safe.call fun t ht choice a u hperform => ?_
  cases hperform
  exact ⟨Quiet.refl (hs.interferes ht), h t ht (hs.interferes ht)⟩

/-- A timer that has fired is over. -/
theorem elapsed_rule {f : Bool → Code ε α} {deadline : Nat} (hs : Ordered s)
    (h : ∀ t passed, Interferes s t → Ordered t → (passed = true → deadline ≤ t.now) → QuietSafe Q (f passed) t) :
    QuietSafe Q (elapsed deadline >>= f) s := by
  refine Safe.call fun t ht choice a u hperform => ?_
  cases hperform
  refine ⟨Quiet.refl (hs.interferes ht), h t _ ht (hs.interferes ht) fun hpassed => ?_⟩
  exact of_decide_eq_true (Bool.and_eq_true_iff.mp hpassed).2

theorem now_rule {f : Nat → Code ε α} (hs : Ordered s)
    (h : ∀ t, Interferes s t → Ordered t → QuietSafe Q (f t.now) t) : QuietSafe Q (now >>= f) s := by
  refine Safe.call fun t ht choice a u hperform => ?_
  cases hperform
  exact ⟨Quiet.refl (hs.interferes ht), h t ht (hs.interferes ht)⟩

end Rules

/-- The state after `storeShuttingDown true`. -/
theorem Ordered.announce (hs : Ordered s) (hct : s.ct = true) (hready : s.readyFlag = false) :
    Ordered { s with shuttingDownFlag := true, announced := s.announced.or (some s.now) } := by
  refine ⟨hs.aborted, fun _ => rfl, fun _ => hct, fun _ => hready, fun _ => ?_, fun time htime => ?_⟩
  · show (s.announced.or (some s.now)).isSome = true
    cases s.announced <;> rfl
  · have htime : s.announced.or (some s.now) = some time := htime
    cases hannounced : s.announced with
    | none =>
      rw [hannounced] at htime
      cases htime
      exact Nat.le_refl _
    | some time' =>
      rw [hannounced] at htime
      cases htime
      exact hs.announced_le _ hannounced

theorem markShuttingDown_safe (hs : Ordered s) (hct : s.ct = true) :
    Safe perform Interferes Flags (fun _ t => Did s t [] ∧ Marked t) markShuttingDown s := by
  refine Safe.call fun t ht choice a u hperform => ?_
  cases hperform
  have ht' := hs.interferes ht
  have hordered : Ordered { t with readyFlag := false } :=
    ⟨ht'.aborted, ht'.network, ht'.shutdown, fun _ => rfl, ht'.announced, ht'.announced_le⟩
  refine ⟨⟨⟨⟨id, id, id, hordered⟩, rfl⟩, rfl, rfl⟩, fun v hv choice a w hperform => ?_⟩
  cases hperform
  have hctv : v.ct = true := hv.ct (ht.ct hct)
  have hordered' := (hordered.interferes hv).announce hctv hv.readyFlag
  have hmarked : Marked { v with shuttingDownFlag := true, announced := v.announced.or (some v.now) } :=
    ⟨hctv, hv.readyFlag, rfl⟩
  refine ⟨⟨⟨⟨id, id, fun _ => rfl, hordered'⟩, rfl⟩, rfl, rfl⟩, fun w hw => ?_⟩
  refine ⟨Did.of_marked (hordered'.interferes hw) (hmarked.interferes hw) (fun time htime => ?_) ?_,
    hmarked.interferes hw⟩
  · rw [hw.announced]
    show v.announced.or (some v.now) = some time
    rw [hv.announced.trans (ht.announced.trans htime)]
    rfl
  · exact ht.toBeside.trans (Beside.trans (t := v)
      ⟨hv.networkCt, hv.now, hv.tasksAborted, hv.log, hv.joined, hv.tasks⟩
      ⟨hw.networkCt, hw.now, hw.tasksAborted, hw.log, hw.joined, hw.tasks⟩)

theorem markShuttingDown_rule {β : Type} {Q : β → Server ε → Prop} {p : Code ε β} (hs : Ordered s)
    (hct : s.ct = true) (h : ∀ t, Did s t [] → Marked t → QuietSafe Q p t) :
    QuietSafe Q (markShuttingDown >>= fun _ => p) s := by
  refine Safe.bind Interferes.refl ((markShuttingDown_safe hs hct).mono (fun _ _ h => h.toQuiet) fun _ t ht => ?_)
  exact h t ht.1 ht.2

/-- After `set_ready` the server is ready, or shuts down. -/
theorem setReady_safe (hs : Ordered s) :
    QuietSafe (fun _ t => Did s t [] ∧ t.readyFlag = !t.shuttingDownFlag) setReady s := by
  have hmark : ∀ t : Server ε, Did s t [] → t.ct = true →
      QuietSafe (fun _ u => Did s u [] ∧ u.readyFlag = !u.shuttingDownFlag) markShuttingDown t := by
    intro t ht hct
    refine (markShuttingDown_safe ht.ordered hct).mono (fun _ _ h => h.toQuiet) fun _ u hu => ?_
    obtain ⟨hdid, hmarked⟩ := hu
    refine ⟨ht.trans hdid, ?_⟩
    rw [hmarked.readyFlag, hmarked.shuttingDownFlag]
    rfl
  refine isShuttingDown_rule hs fun t ht hordered => ?_
  have hdid := Did.of_interferes hordered ht
  by_cases hct : t.ct = true
  · rw [if_pos hct]
    exact hmark t hdid hct
  · rw [if_neg hct]
    refine Safe.call fun u hu choice a v hperform => ?_
    cases hperform
    have hordered' := hordered.interferes hu
    -- The shutdown is announced by this task only, and only once it has begun.
    have hrunning : u.shuttingDownFlag = false := by
      rw [hu.shuttingDownFlag]
      exact Bool.eq_false_iff.mpr fun h => hct (hordered.shutdown h)
    have hready : Ordered { u with readyFlag := true } := by
      refine ⟨hordered'.aborted, hordered'.network, hordered'.shutdown, fun h => ?_, hordered'.announced,
        hordered'.announced_le⟩
      rw [hrunning] at h
      cases h
    have hdid' : Did s { u with readyFlag := true } [] := by
      have h := hdid.interferes hu
      exact ⟨hready, h.ct, h.shuttingDownFlag, h.networkCt, h.now, h.announced, h.tasksAborted, h.log, h.joined,
        h.tasks⟩
    refine ⟨⟨⟨id, id, id, hready⟩, rfl⟩, ?_⟩
    refine isShuttingDown_rule hready fun v hv hordered'' => ?_
    by_cases hct' : v.ct = true
    · rw [if_pos hct']
      exact hmark v (hdid'.interferes hv) hct'
    · rw [if_neg hct']
      refine Safe.pure fun w hw => ⟨(hdid'.interferes hv).interferes hw, ?_⟩
      rw [hw.readyFlag, hw.shuttingDownFlag, hv.readyFlag, hv.shuttingDownFlag]
      show true = !u.shuttingDownFlag
      rw [hrunning]
      rfl

/-! ## The work -/

/-- What a work does: `w.Does log rest` when it can do `log` and then has `rest` left. -/
inductive Work.Does : Work ε α → List (ε × Nat) → Work ε α → Prop
  | refl (w : Work ε α) : Does w [] w
  | pending {w rest : Work ε α} {log : List (ε × Nat)} (h : Does w log rest) : Does (.pending w) log rest
  | setReady {w rest : Work ε α} {log : List (ε × Nat)} (h : Does w log rest) : Does (.setReady w) log rest
  | effect {e : ε} {w : Nat → Work ε α} {answer : Nat} {rest : Work ε α} {log : List (ε × Nat)}
      (h : Does (w answer) log rest) : Does (.effect e w) ((e, answer) :: log) rest

/-- What is left of a work that was polled until it was interrupted or has finished. -/
def Work.remains : Work ε α ⊕ α → Work ε α
  | .inl rest => rest
  | .inr result => .ready result

theorem setReady_rule {β : Type} {Q : β → Server ε → Prop} {p : Code ε β} (hs : Ordered s)
    (h : ∀ t, Did s t [] → QuietSafe Q p t) : QuietSafe Q (setReady >>= fun _ => p) s := by
  refine Safe.bind Interferes.refl ((setReady_safe hs).mono (fun _ _ h => h) fun _ t ht => ?_)
  exact h t ht.1

theorem effect_rule {β : Type} {Q : β → Server ε → Prop} {e : ε} {f : Nat → Code ε β} (hs : Ordered s)
    (h : ∀ t answer, Did s t [(e, answer)] → QuietSafe Q (f answer) t) : QuietSafe Q (effect e >>= f) s := by
  refine Safe.call fun t ht choice a u hperform => ?_
  cases hperform
  have ht' := hs.interferes ht
  have hordered : Ordered { t with log := t.log ++ [(e, choice)] } :=
    ⟨ht'.aborted, ht'.network, ht'.shutdown, ht'.unready, ht'.announced, ht'.announced_le⟩
  have hdid := Did.of_interferes ht' ht
  refine ⟨⟨⟨id, id, id, hordered⟩, rfl⟩, h _ choice ⟨hordered, hdid.ct, hdid.shuttingDownFlag, hdid.networkCt, hdid.now,
    hdid.announced, hdid.tasksAborted, ?_, hdid.joined, hdid.tasks⟩⟩
  show t.log ++ _ = _
  rw [ht.log]

/-- A polled work is interrupted by the shutdown only, and what it has done until then is what it does. -/
theorem Work.poll_safe (w : Work ε α) (hs : Ordered s) :
    QuietSafe (fun r t => ∃ log, Did s t log ∧ w.Does log (Work.remains r) ∧ (r.isLeft = true → t.ct = true))
      w.poll s := by
  induction w generalizing s with
  | ready result =>
    refine Safe.pure fun t ht => ⟨[], Did.of_interferes (hs.interferes ht) ht, Work.Does.refl _, fun h => ?_⟩
    cases h
  | pending rest ih =>
    refine isShuttingDown_rule hs fun t ht hordered => ?_
    by_cases hct : t.ct = true
    · rw [if_pos hct]
      refine Safe.pure fun u hu => ?_
      have hdid := (Did.of_interferes hordered ht).interferes hu
      exact ⟨[], hdid, Work.Does.pending (Work.Does.refl rest), fun _ => hu.ct hct⟩
    · rw [if_neg hct]
      refine (ih hordered).mono (fun _ _ h => h) fun r u hu => ?_
      obtain ⟨log, hdid, hdoes, hleft⟩ := hu
      exact ⟨log, (Did.of_interferes hordered ht).trans hdid, Work.Does.pending hdoes, hleft⟩
  | setReady rest ih =>
    refine setReady_rule hs fun t ht => (ih ht.ordered).mono (fun _ _ h => h) fun r u hu => ?_
    obtain ⟨log, hdid, hdoes, hleft⟩ := hu
    exact ⟨log, ht.trans hdid, Work.Does.setReady hdoes, hleft⟩
  | effect e rest ih =>
    refine effect_rule hs fun t answer ht => (ih answer ht.ordered).mono (fun _ _ h => h) fun r u hu => ?_
    obtain ⟨log, hdid, hdoes, hleft⟩ := hu
    exact ⟨(e, answer) :: log, ht.trans hdid, Work.Does.effect hdoes, hleft⟩

theorem Work.select_safe (w : Work ε α) (hs : Ordered s) :
    QuietSafe (fun r t => ∃ log, Did s t log ∧ w.Does log (Work.remains r) ∧ (r.isLeft = true → t.ct = true))
      w.select s := by
  refine isShuttingDown_rule hs fun t ht hordered => ?_
  by_cases hct : t.ct = true
  · rw [if_pos hct]
    refine Safe.pure fun u hu => ?_
    exact ⟨[], (Did.of_interferes hordered ht).interferes hu, Work.Does.refl w, fun _ => hu.ct hct⟩
  · rw [if_neg hct]
    refine (w.poll_safe hordered).mono (fun _ _ h => h) fun r u hu => ?_
    obtain ⟨log, hdid, hdoes, hleft⟩ := hu
    exact ⟨log, (Did.of_interferes hordered ht).trans hdid, hdoes, hleft⟩

/-- A draining work does what it would do, and returns its result unless the deadline has passed. -/
theorem Work.timeoutAt_safe (deadline : Nat) (w : Work ε α) (hs : Ordered s) :
    QuietSafe (fun r t => ∃ log rest, Did s t log ∧ w.Does log rest ∧
      (∀ result, r = some result → rest = .ready result) ∧ (r = none → deadline ≤ t.now)) (w.timeoutAt deadline) s := by
  induction w generalizing s with
  | ready result =>
    refine Safe.pure fun t ht => ?_
    refine ⟨[], .ready result, Did.of_interferes (hs.interferes ht) ht, Work.Does.refl _, fun result' h => ?_,
      fun h => ?_⟩
    · cases h
      rfl
    · cases h
  | pending rest ih =>
    refine elapsed_rule hs fun t passed ht hordered hdeadline => ?_
    by_cases hpassed : passed = true
    · rw [if_pos hpassed]
      refine Safe.pure fun u hu => ?_
      refine ⟨[], rest, (Did.of_interferes hordered ht).interferes hu, Work.Does.pending (Work.Does.refl rest),
        fun result h => ?_, fun _ => Nat.le_trans (hdeadline hpassed) hu.now⟩
      cases h
    · rw [if_neg hpassed]
      refine (ih hordered).mono (fun _ _ h => h) fun r u hu => ?_
      obtain ⟨log, rest', hdid, hdoes, hend⟩ := hu
      exact ⟨log, rest', (Did.of_interferes hordered ht).trans hdid, Work.Does.pending hdoes, hend⟩
  | setReady rest ih =>
    refine setReady_rule hs fun t ht => (ih ht.ordered).mono (fun _ _ h => h) fun r u hu => ?_
    obtain ⟨log, rest', hdid, hdoes, hend⟩ := hu
    exact ⟨log, rest', ht.trans hdid, Work.Does.setReady hdoes, hend⟩
  | effect e rest ih =>
    refine effect_rule hs fun t answer ht => (ih answer ht.ordered).mono (fun _ _ h => h) fun r u hu => ?_
    obtain ⟨log, rest', hdid, hdoes, hend⟩ := hu
    exact ⟨(e, answer) :: log, rest', ht.trans hdid, Work.Does.effect hdoes, hend⟩

/-- The deadline counts from the start of the drain. -/
theorem Work.timeout_safe (duration : Duration) (w : Work ε α) (hs : Ordered s) :
    QuietSafe (fun r t => ∃ log rest, Did s t log ∧ w.Does log rest ∧
      (∀ result, r = some result → rest = .ready result) ∧ (r = none → s.now + duration.nanos ≤ t.now))
      (w.timeout duration) s := by
  refine now_rule hs fun t ht hordered => ?_
  refine (w.timeoutAt_safe _ hordered).mono (fun _ _ h => h) fun r u hu => ?_
  obtain ⟨log, rest, hdid, hdoes, hresult, hdeadline⟩ := hu
  refine ⟨log, rest, (Did.of_interferes hordered ht).trans hdid, hdoes, hresult, fun hr => ?_⟩
  exact Nat.le_trans (Nat.add_le_add_right ht.now _) (hdeadline hr)

theorem Work.Does.trans {w rest rest' : Work ε α} {log log' : List (ε × Nat)} (h : w.Does log rest)
    (h' : rest.Does log' rest') : w.Does (log ++ log') rest' := by
  induction h with
  | refl => exact h'
  | pending _ ih => exact Work.Does.pending (ih h')
  | setReady _ ih => exact Work.Does.setReady (ih h')
  | effect _ ih => exact Work.Does.effect (ih h')

/-- How an iteration ends. -/
inductive IterationEnds (drainTimeout : Duration) (work : Work ε (Except Report Unit)) (log : List (ε × Nat))
    (t : Server ε) : Except Report Unit → Prop
  /-- The shutdown had begun before. -/
  | notStarted (hlog : log = []) (h : Marked t) : IterationEnds drainTimeout work log t (.ok ())
  | completed {result : Except Report Unit} (h : work.Does log (.ready result)) :
      IterationEnds drainTimeout work log t result
  | drained {result : Except Report Unit} (h : work.Does log (.ready result)) (hmarked : Marked t) :
      IterationEnds drainTimeout work log t (wrapErr result "anon stats iteration failed while draining")
  /-- The work was not done when the drain timeout had passed since shutting down was announced. -/
  | timedOut {rest : Work ε (Except Report Unit)} {time : Nat} (h : work.Does log rest) (hmarked : Marked t)
      (hannounced : t.announced = some time) (hpassed : time + drainTimeout.nanos ≤ t.now) :
      IterationEnds drainTimeout work log t (.error (drainTimedOut drainTimeout))

theorem IterationEnds.interferes {drainTimeout : Duration} {work : Work ε (Except Report Unit)} {log : List (ε × Nat)}
    {result : Except Report Unit} (h : IterationEnds drainTimeout work log s result) (hR : Interferes s t) :
    IterationEnds drainTimeout work log t result := by
  cases h with
  | notStarted hlog hmarked => exact IterationEnds.notStarted hlog (hmarked.interferes hR)
  | completed h => exact IterationEnds.completed h
  | drained h hmarked => exact IterationEnds.drained h (hmarked.interferes hR)
  | timedOut h hmarked hannounced hpassed =>
    exact IterationEnds.timedOut h (hmarked.interferes hR) (hR.announced.trans hannounced)
      (Nat.le_trans hpassed hR.now)

theorem iteration_safe (drainTimeout : Duration) (work : Work ε (Except Report Unit)) (hs : Ordered s) :
    QuietSafe (fun r t => ∃ log, Did s t log ∧ IterationEnds drainTimeout work log t r ∧
      (s.ct = true → log = [] ∧ r = .ok ())) (iteration drainTimeout work) s := by
  refine isShuttingDown_rule hs fun t ht hordered => ?_
  have hdid := Did.of_interferes hordered ht
  by_cases hct : t.ct = true
  · rw [if_pos hct]
    refine markShuttingDown_rule hordered hct fun u hu hmarked => Safe.pure fun v hv => ?_
    exact ⟨[], (hdid.trans hu).interferes hv, IterationEnds.notStarted rfl (hmarked.interferes hv), fun _ => ⟨rfl, rfl⟩⟩
  · rw [if_neg hct]
    have hstart : s.ct ≠ true := fun h => hct (ht.ct h)
    refine Safe.bind Interferes.refl ((work.select_safe hordered).mono (fun _ _ h => h) fun r u hu => ?_)
    obtain ⟨log, hu, hdoes, hleft⟩ := hu
    cases r with
    | inr result =>
      refine Safe.pure fun v hv => ⟨log, (hdid.trans hu).interferes hv, IterationEnds.completed hdoes, fun h => ?_⟩
      exact absurd h hstart
    | inl rest =>
      refine markShuttingDown_rule hu.ordered (hleft rfl) fun v hv hmarked => ?_
      have hv' := (hdid.trans hu).trans hv
      rw [List.append_nil] at hv'
      refine Safe.bind Interferes.refl ((rest.timeout_safe drainTimeout hv.ordered).mono (fun _ _ h => h)
        fun r w hw => ?_)
      obtain ⟨log', rest', hw, hdoes', hresult, hdeadline⟩ := hw
      have hmarked' := hw.marked hmarked.shuttingDownFlag
      cases r with
      | none =>
        refine Safe.pure fun x hx => ⟨log ++ log', (hv'.trans hw).interferes hx, ?_, fun h => absurd h hstart⟩
        obtain ⟨time, htime⟩ := Option.isSome_iff_exists.mp (hv.ordered.announced hmarked.shuttingDownFlag)
        refine IterationEnds.timedOut (hdoes.trans hdoes') (hmarked'.interferes hx)
          (hx.announced.trans (hw.announced time htime)) ?_
        have hstart := hv.ordered.announced_le time htime
        exact Nat.le_trans (Nat.add_le_add_right hstart _) (Nat.le_trans (hdeadline rfl) hx.now)
      | some result =>
        refine Safe.pure fun x hx => ⟨log ++ log', (hv'.trans hw).interferes hx, ?_, fun h => absurd h hstart⟩
        rw [hresult result rfl] at hdoes'
        exact IterationEnds.drained (hdoes.trans hdoes') (hmarked'.interferes hx)

/-- How a startup ends. -/
inductive StartupEnds {τ : Type} (work : Work ε (Except Report τ)) (log : List (ε × Nat)) (t : Server ε) :
    Except Report (Option τ) → Prop
  | completed {result : Except Report τ} (h : work.Does log (.ready result)) :
      StartupEnds work log t (result.map some)
  | interrupted {rest : Work ε (Except Report τ)} (h : work.Does log rest) (hmarked : Marked t) :
      StartupEnds work log t (.ok none)

theorem startup_safe {τ : Type} (work : Work ε (Except Report τ)) (hs : Ordered s) :
    QuietSafe (fun r t => ∃ log, Did s t log ∧ StartupEnds work log t r) (startup work) s := by
  refine Safe.bind Interferes.refl ((work.select_safe hs).mono (fun _ _ h => h) fun r t ht => ?_)
  obtain ⟨log, ht, hdoes, hleft⟩ := ht
  cases r with
  | inr result => exact Safe.pure fun u hu => ⟨log, ht.interferes hu, StartupEnds.completed hdoes⟩
  | inl rest =>
    refine markShuttingDown_rule ht.ordered (hleft rfl) fun u hu hmarked => Safe.pure fun v hv => ?_
    have hdid := ht.trans hu
    rw [List.append_nil] at hdid
    exact ⟨log, hdid.interferes hv, StartupEnds.interrupted hdoes (hmarked.interferes hv)⟩

/-! ## The background tasks -/

theorem mem_of_eraseIdx {tasks : List Task} {i : Nat} {task : Task} (h : task ∈ tasks.eraseIdx i) : task ∈ tasks :=
  (List.eraseIdx_sublist tasks i).subset h

/-- A finished task is taken out of the set. -/
structure Joins (s : Server ε) (i : Nat) (result : TaskResult) (t : Server ε) : Prop where
  task : s.tasks[i]? = some (.finished result)
  state : t = { s with tasks := s.tasks.eraseIdx i, joined := s.joined ++ [result] }

theorem join_cases {i : Nat} {answer : Option TaskResult} (h : s.join i = some (answer, t)) :
    ∃ result, answer = some result ∧ Joins s i result t := by
  unfold Server.join at h
  split at h
  · rename_i result htask
    cases h
    exact ⟨result, rfl, htask, rfl⟩
  · cases h

theorem tryJoinNext_cases {i : Nat} {answer : Option TaskResult}
    (h : perform (Op.tryJoinNext : Op ε) i s = some (answer, t)) :
    (answer = none ∧ s.tasks.any Task.isFinished = false ∧ t = s) ∨
      ∃ result, answer = some result ∧ Joins s i result t := by
  change (if s.tasks.any Task.isFinished = true then s.join i else some (none, s)) = some (answer, t) at h
  split at h
  · exact Or.inr (join_cases h)
  · rename_i hrunning
    cases h
    exact Or.inl ⟨rfl, Bool.eq_false_iff.mpr hrunning, rfl⟩

theorem joinNext_cases {i : Nat} {answer : Option TaskResult}
    (h : perform (Op.joinNext : Op ε) i s = some (answer, t)) :
    (answer = none ∧ s.tasks = [] ∧ t = s) ∨ ∃ result, answer = some result ∧ Joins s i result t := by
  change (if s.tasks.isEmpty = true then some (none, s) else s.join i) = some (answer, t) at h
  split at h
  · rename_i hempty
    cases h
    exact Or.inl ⟨rfl, List.isEmpty_iff.mp hempty, rfl⟩
  · exact Or.inr (join_cases h)

theorem Ordered.eraseIdx (h : Ordered s) (i : Nat) (joined : List TaskResult) :
    Ordered { s with tasks := s.tasks.eraseIdx i, joined := joined } :=
  ⟨fun task hmem => h.aborted task (mem_of_eraseIdx hmem), h.network, h.shutdown, h.unready, h.announced,
    h.announced_le⟩

/-- What a task can end with. -/
def Task.EndsWith : Task → TaskResult → Prop
  | .running _, _ => True
  | .finished result, result' => result' = result

theorem TaskEnds.endsWith {a b : Task} {result : TaskResult} (h : TaskEnds a b) (hb : b.EndsWith result) :
    a.EndsWith result := by
  cases h with
  | same => exact hb
  | ends h => trivial

/-- What a check of the tasks says: nothing has ended, or it reports the task that it has taken out of the set. -/
inductive TasksChecked (s t : Server ε) : Except Report Unit → Prop
  | running (hjoined : t.joined = s.joined) (h : ∀ task ∈ s.tasks, task.isFinished = false) :
      TasksChecked s t (.ok ())
  | ended {task : Task} {result : TaskResult} (htask : task ∈ s.tasks) (h : task.EndsWith result)
      (hjoined : t.joined = s.joined ++ [result]) : TasksChecked s t (.error (backgroundFailure result))

theorem mem_endsWith_of_forall₂ {as bs : List Task} {result : TaskResult} (h : List.Forall₂ TaskEnds as bs)
    (hb : .finished result ∈ bs) : ∃ task ∈ as, task.EndsWith result := by
  induction h with
  | nil => cases hb
  | cons hab _ ih =>
    rcases List.mem_cons.mp hb with rfl | hmem
    · exact ⟨_, List.mem_cons_self, hab.endsWith rfl⟩
    · obtain ⟨task, htask, hends⟩ := ih hmem
      exact ⟨task, List.mem_cons_of_mem _ htask, hends⟩

theorem not_isFinished_of_forall₂ {as bs : List Task} (h : List.Forall₂ TaskEnds as bs)
    (hb : bs.any Task.isFinished = false) : ∀ task ∈ as, task.isFinished = false := by
  induction h with
  | nil =>
    intro task hmem
    cases hmem
  | cons hab _ ih =>
    rw [List.any_cons, Bool.or_eq_false_iff] at hb
    intro task hmem
    rcases List.mem_cons.mp hmem with rfl | hmem
    · cases hab with
      | same => exact hb.1
      | ends h => rfl
    · exact ih hb.2 task hmem

theorem checkBackgroundTasks_safe (hs : Ordered s) :
    QuietSafe (fun r t => Ordered t ∧ TasksChecked s t r) checkBackgroundTasks s := by
  refine Safe.call fun t ht i answer u hperform => ?_
  have ht' := hs.interferes ht
  rcases tryJoinNext_cases hperform with ⟨rfl, hrunning, rfl⟩ | ⟨result, rfl, hmem, rfl⟩
  · refine ⟨Quiet.refl ht', Safe.pure fun v hv => ⟨ht'.interferes hv, TasksChecked.running ?_ ?_⟩⟩
    · rw [hv.joined, ht.joined]
    · exact not_isFinished_of_forall₂ ht.tasks hrunning
  · have hordered := ht'.eraseIdx i (t.joined ++ [result])
    obtain ⟨task, htask, hends⟩ := mem_endsWith_of_forall₂ ht.tasks (List.mem_of_getElem? hmem)
    refine ⟨⟨⟨id, id, id, hordered⟩, rfl⟩, Safe.pure fun v hv => ?_⟩
    refine ⟨hordered.interferes hv, TasksChecked.ended htask hends ?_⟩
    rw [hv.joined]
    show t.joined ++ [result] = _
    rw [ht.joined]

theorem endsWith_abort {task : Task} {result : TaskResult} (h : task.abort.EndsWith result) : task.EndsWith result := by
  cases task with
  | running aborted => trivial
  | finished result' => exact h

/-- Each task of the first list has ended, and their results are those of the second one. -/
def EndedWith (tasks : List Task) (results : List TaskResult) : Prop :=
  ∃ rs, List.Forall₂ Task.EndsWith tasks rs ∧ rs.Perm results

theorem EndedWith.of_taskEnds {as bs : List Task} {results : List TaskResult} (h : List.Forall₂ TaskEnds as bs)
    (hb : EndedWith bs results) : EndedWith as results := by
  obtain ⟨rs, hrs, hperm⟩ := hb
  refine ⟨rs, ?_, hperm⟩
  clear hperm
  induction h generalizing rs with
  | nil => exact hrs
  | cons hab _ ih =>
    rcases List.forall₂_cons_left_iff.mp hrs with ⟨r, rs', hr, hrest, rfl⟩
    exact List.Forall₂.cons (hab.endsWith hr) (ih rs' hrest)

theorem EndedWith.of_abort {tasks : List Task} {results : List TaskResult}
    (h : EndedWith (tasks.map Task.abort) results) : EndedWith tasks results := by
  obtain ⟨rs, hrs, hperm⟩ := h
  refine ⟨rs, ?_, hperm⟩
  rw [List.forall₂_map_left_iff] at hrs
  exact hrs.imp fun _ _ => endsWith_abort

/-- One more task was joined. -/
theorem EndedWith.join {tasks : List Task} {i : Nat} {result : TaskResult} {results : List TaskResult}
    (hi : tasks[i]? = some (.finished result)) (h : EndedWith (tasks.eraseIdx i) results) :
    EndedWith tasks (result :: results) := by
  obtain ⟨rs, hrs, hperm⟩ := h
  suffices hs : ∃ rs', List.Forall₂ Task.EndsWith tasks rs' ∧ rs'.Perm (result :: rs) by
    obtain ⟨rs', hrs', hperm'⟩ := hs
    exact ⟨rs', hrs', hperm'.trans (List.Perm.cons result hperm)⟩
  clear hperm
  induction tasks generalizing i rs with
  | nil => cases hi
  | cons task tasks ih =>
    cases i with
    | zero =>
      cases hi
      exact ⟨result :: rs, List.Forall₂.cons rfl hrs, List.Perm.refl _⟩
    | succ i =>
      rcases List.forall₂_cons_left_iff.mp hrs with ⟨r, rs', hr, hrest, rfl⟩
      obtain ⟨rs'', hrs'', hperm⟩ := ih hi rs' hrest
      exact ⟨r :: rs'', List.Forall₂.cons hr hrs'', (List.Perm.cons r hperm).trans (List.Perm.swap result r rs')⟩

/-- Every task that runs was aborted. -/
def AllAborted (s : Server ε) : Prop := Task.running false ∉ s.tasks

/-- A step of the cleanup. A task is joined only when every task that runs was aborted, and this stays so. -/
structure Cleans (s t : Server ε) : Prop extends Advance s t where
  allAborted : AllAborted s → AllAborted t
  joined : t.joined = s.joined ∨ AllAborted t

theorem Flags.cleans (h : Flags s t) : Cleans s t :=
  ⟨h.toAdvance, fun hs => by rw [AllAborted, h.tasks]; exact hs, Or.inl h.joined⟩

theorem not_mem_running_of_forall₂ {as bs : List Task} (h : List.Forall₂ TaskEnds as bs)
    (ha : Task.running false ∉ as) : Task.running false ∉ bs := by
  induction h with
  | nil => exact ha
  | cons hab _ ih =>
    rw [List.mem_cons, not_or] at ha ⊢
    refine ⟨fun hb => ?_, ih ha.2⟩
    cases hab with
    | same => exact ha.1 hb
    | ends => cases hb

theorem AllAborted.interferes (h : AllAborted s) (hR : Interferes s t) : AllAborted t :=
  not_mem_running_of_forall₂ hR.tasks h

theorem allAborted_abort (tasks : List Task) : Task.running false ∉ tasks.map Task.abort := by
  intro hmem
  obtain ⟨task, -, htask⟩ := List.mem_map.mp hmem
  cases task <;> cases htask

/-- In a run of the cleanup no task is joined while one runs that was not aborted. -/
theorem joined_path (h : Relation.ReflTransGen (fun s t : Server ε => Interferes s t ∨ Cleans s t) s t) :
    t.joined = s.joined ∨ AllAborted t := by
  induction h with
  | refl => exact Or.inl rfl
  | tail _ hstep ih =>
    rcases hstep with hR | hG
    · exact ih.imp hR.joined.trans fun h => h.interferes hR
    · rcases ih with hsame | haborted
      · exact hG.joined.imp_left fun hjoined => hjoined.trans hsame
      · exact Or.inr (hG.allAborted haborted)

/-- The loop of `cleanup` joins all tasks, and keeps the first failure. -/
theorem joinAll_safe (rounds : Nat) (cleanupError : Option Report) (hs : Ordered s) (haborted : AllAborted s)
    (hlength : s.tasks.length < rounds) :
    Safe perform Interferes Cleans (fun r t => ∃ results, Ordered t ∧ (s.ct = true → t.ct = true) ∧
      t.networkCt = s.networkCt ∧ t.shuttingDownFlag = s.shuttingDownFlag ∧ t.tasksAborted = s.tasksAborted ∧
      t.log = s.log ∧ t.tasks = [] ∧ t.joined = s.joined ++ results ∧
      EndedWith s.tasks results ∧ r = cleanupError.or (results.findSome? cleanupFailure))
      (joinAll rounds cleanupError) s := by
  induction rounds generalizing s cleanupError with
  | zero => omega
  | succ rounds ih =>
    refine Safe.call fun t ht i answer u hperform => ?_
    have ht' := hs.interferes ht
    have htaborted := haborted.interferes ht
    have hlen : t.tasks.length = s.tasks.length := ht.tasks.length_eq.symm
    rcases joinNext_cases hperform with ⟨rfl, htasks, rfl⟩ | ⟨result, rfl, htask, rfl⟩
    · have hnone : s.tasks = [] := by
        rw [← List.length_eq_zero_iff, ← hlen, htasks]
        rfl
      refine ⟨⟨(Quiet.refl ht').toAdvance, id, Or.inl rfl⟩, Safe.pure fun v hv => ⟨[], ht'.interferes hv, hv.ct ∘ ht.ct,
        hv.networkCt.trans ht.networkCt, hv.shuttingDownFlag.trans ht.shuttingDownFlag,
        hv.tasksAborted.trans ht.tasksAborted, hv.log.trans ht.log, ?_, ?_, ⟨[], ?_, List.Perm.nil⟩, ?_⟩⟩
      · have h := hv.tasks.length_eq
        rw [htasks] at h
        exact List.length_eq_zero_iff.mp h.symm
      · rw [hv.joined, ht.joined, List.append_nil]
      · rw [hnone]
        exact List.Forall₂.nil
      · simp
    · have hi : i < t.tasks.length := (List.getElem?_eq_some_iff.mp htask).1
      have hordered := ht'.eraseIdx i (t.joined ++ [result])
      have hrest : AllAborted { t with tasks := t.tasks.eraseIdx i, joined := t.joined ++ [result] } :=
        fun hmem => htaborted (mem_of_eraseIdx hmem)
      refine ⟨⟨⟨id, id, id, hordered⟩, fun _ => hrest, Or.inr hrest⟩, ?_⟩
      refine (ih _ hordered hrest ?_).mono (fun _ _ h => h) fun r v hv => ?_
      · show (t.tasks.eraseIdx i).length < rounds
        rw [List.length_eraseIdx_of_lt hi]
        omega
      · obtain ⟨results, hv, hct, hnetwork, hshutting, htasksAborted, hlog, htasks, hjoined, hended, rfl⟩ := hv
        refine ⟨result :: results, hv, hct ∘ ht.ct, hnetwork.trans ht.networkCt, hshutting.trans ht.shuttingDownFlag,
          htasksAborted.trans ht.tasksAborted, hlog.trans ht.log, htasks, ?_,
          (EndedWith.join htask hended).of_taskEnds ht.tasks, ?_⟩
        · rw [hjoined, ht.joined, List.append_assoc]
          rfl
        · rw [Option.or_assoc, List.findSome?_cons]
          cases cleanupFailure result <;> rfl

theorem Quiet.advance (s t : Server ε) (h : Quiet s t) : Advance s t := h.toAdvance

/-- What holds when the cleanup of a server has returned: shutting down is announced, the network is cancelled, and all
tasks were aborted and are gone. -/
def CleanedUp (s : Server ε) : Prop := Marked s ∧ s.networkCt = true ∧ s.tasksAborted = true ∧ s.tasks = []

theorem cleanup_safe (result : Except Report Unit) (hs : Ordered s) :
    Safe perform Interferes Cleans (fun r t => CleanedUp t ∧ t.log = s.log ∧
      ∃ results, t.joined = s.joined ++ results ∧ EndedWith s.tasks results ∧
        r = andCleanup result (results.findSome? cleanupFailure)) (cleanup result) s := by
  refine Safe.call fun t ht choice a u hperform => ?_
  cases hperform
  have ht' := hs.interferes ht
  have hordered : Ordered { t with ct := true } :=
    ⟨ht'.aborted, ht'.network, fun _ => rfl, ht'.unready, ht'.announced, ht'.announced_le⟩
  refine ⟨⟨⟨fun _ => rfl, id, id, hordered⟩, id, Or.inl rfl⟩, ?_⟩
  refine Safe.bind Interferes.refl
    ((markShuttingDown_safe hordered rfl).mono (fun _ _ => Flags.cleans) fun _ v hv => ?_)
  obtain ⟨hdid, hmarked⟩ := hv
  refine Safe.call fun w hw choice a x hperform => ?_
  cases hperform
  have hw' := hdid.ordered.interferes hw
  have hmarked' := hmarked.interferes hw
  have hordered' : Ordered { w with networkCt := true } :=
    ⟨fun _ _ _ => rfl, fun _ => hmarked'.shuttingDownFlag, hw'.shutdown, hw'.unready, hw'.announced, hw'.announced_le⟩
  refine ⟨⟨⟨id, fun _ => rfl, id, hordered'⟩, id, Or.inl rfl⟩, ?_⟩
  refine Safe.call fun y hy choice a z hperform => ?_
  cases hperform
  have hy' := hordered'.interferes hy
  have hordered'' : Ordered { y with tasks := y.tasks.map Task.abort, tasksAborted := true } :=
    ⟨fun _ _ _ => hy.networkCt, hy'.network, hy'.shutdown, hy'.unready, hy'.announced, hy'.announced_le⟩
  have haborted : AllAborted { y with tasks := y.tasks.map Task.abort, tasksAborted := true } :=
    allAborted_abort y.tasks
  refine ⟨⟨⟨id, id, id, hordered''⟩, fun _ => haborted, Or.inl rfl⟩, ?_⟩
  refine Safe.bind Interferes.refl ((joinAll_safe _ none hordered'' haborted ?_).mono (fun _ _ h => h) fun e z hz => ?_)
  · show (y.tasks.map Task.abort).length < y.tasks.length + 1
    rw [List.length_map]
    omega
  · obtain ⟨results, hz, hct, hnetwork, hshutting, htasksAborted, hlog, htasks, hjoined, hended, rfl⟩ := hz
    refine Safe.pure fun z' hz' => ⟨⟨?_, ?_, ?_, ?_⟩, ?_, results, ?_, ?_, ?_⟩
    · have hflag : z.shuttingDownFlag = true :=
        hshutting.trans (hy.shuttingDownFlag.trans hmarked'.shuttingDownFlag)
      exact Marked.interferes ⟨hz.shutdown hflag, hz.unready hflag, hflag⟩ hz'
    · exact hz'.networkCt.trans (hnetwork.trans hy.networkCt)
    · exact hz'.tasksAborted.trans htasksAborted
    · have h := hz'.tasks.length_eq
      rw [htasks] at h
      exact List.length_eq_zero_iff.mp h.symm
    · have hnothing : v.log = t.log := by rw [hdid.log, List.append_nil]
      exact hz'.log.trans (hlog.trans (hy.log.trans (hw.log.trans (hnothing.trans ht.log))))
    · rw [hz'.joined, hjoined]
      show y.joined ++ results = _
      rw [hy.joined]
      show w.joined ++ results = _
      rw [hw.joined, hdid.joined]
      show t.joined ++ results = _
      rw [ht.joined]
    · have hbefore : List.Forall₂ TaskEnds s.tasks y.tasks :=
        forall₂_taskEnds_trans ht.tasks (forall₂_taskEnds_trans hdid.tasks
          (forall₂_taskEnds_trans hw.tasks hy.tasks))
      exact (EndedWith.of_abort hended).of_taskEnds hbefore
    · rfl

/-! ## A server -/

theorem Main.code_safe {τ : Type} (main : Main ε τ) (hs : Ordered s) :
    Safe perform Interferes Advance (fun _ t => CleanedUp t) main.code s := by
  induction main generalizing s with
  | spawn rest ih =>
    refine Safe.call fun t ht choice a u hperform => ?_
    cases hperform
    have ht' := hs.interferes ht
    have hordered : Ordered { t with tasks := t.tasks ++ [.running false] } := by
      refine ⟨fun task hmem htask => ?_, ht'.network, ht'.shutdown, ht'.unready, ht'.announced, ht'.announced_le⟩
      rcases List.mem_append.mp hmem with hmem | hmem
      · exact ht'.aborted task hmem htask
      · rw [List.mem_singleton.mp hmem] at htask
        cases htask
    exact ⟨⟨id, id, id, hordered⟩, ih hordered⟩
  | startup work rest ih =>
    refine Safe.bind Interferes.refl ((startup_safe work hs).mono Quiet.advance fun r t ht => ?_)
    obtain ⟨log, hdid, -⟩ := ht
    exact ih r hdid.ordered
  | setReady rest ih =>
    exact Safe.bind Interferes.refl ((setReady_safe hs).mono Quiet.advance fun _ t ht => ih ht.1.ordered)
  | iteration drainTimeout work rest ih =>
    refine Safe.bind Interferes.refl ((iteration_safe drainTimeout work hs).mono Quiet.advance fun r t ht => ?_)
    obtain ⟨log, hdid, -, -⟩ := ht
    exact ih r hdid.ordered
  | checkBackgroundTasks rest ih =>
    exact Safe.bind Interferes.refl ((checkBackgroundTasks_safe hs).mono Quiet.advance fun r t ht => ih r ht.1)
  | cleanup result =>
    exact (cleanup_safe result hs).mono (fun _ _ h => h.toAdvance) fun r t ht => ht.1

/-- What a run changes, whose steps keep the flags in order. -/
theorem Ordered.path (h : Ordered s)
    (hpath : Relation.ReflTransGen (fun s t : Server ε => Interferes s t ∨ Advance s t) s t) : Advance s t := by
  induction hpath with
  | refl => exact ⟨id, id, id, h⟩
  | tail _ hstep ih =>
    rcases hstep with hR | hG
    · refine ⟨hR.ct ∘ ih.ct, fun hn => ?_, fun hs => ?_, ih.ordered.interferes hR⟩
      · exact hR.networkCt.trans (ih.networkCt hn)
      · exact hR.shuttingDownFlag.trans (ih.shuttingDownFlag hs)
    · exact ⟨hG.ct ∘ ih.ct, hG.networkCt ∘ ih.networkCt, hG.shuttingDownFlag ∘ ih.shuttingDownFlag, hG.ordered⟩

theorem Main.run_safe {τ : Type} (main : Main ε τ) {moves : List (Move Nat Event)}
    {c : Code ε (Except Report Unit) × Server ε}
    (hrun : Transition.run step (main.code, Server.init) moves = some c) :
    Safe perform Interferes Advance (fun _ t => CleanedUp t) c.1 c.2 ∧ Ordered c.2 := by
  obtain ⟨hsafe, hpath⟩ :=
    (main.code_safe Ordered.init).run Interferes.refl Interferes.trans interfere_interferes hrun
  exact ⟨hsafe, (Ordered.init.path hpath).ordered⟩

/-- **The shutdown is orderly.** In every run of every server, whatever works it runs and whenever the signal comes,
tasks are aborted only after the network was cancelled, the network is cancelled only after shutting down was announced,
and this only during a shutdown. A server that has announced it is never ready again; so an answer of `/health`, which
reads this flag first, never says both. When the server has returned, all of this has happened, the tasks were aborted
and all of them are joined. -/
theorem server_shuts_down_orderly {τ : Type} (main : Main ε τ) {moves moves' : List (Move Nat Event)}
    {c d : Code ε (Except Report Unit) × Server ε}
    (hrun : Transition.run step (main.code, Server.init) moves = some c)
    (hrun' : Transition.run step c moves' = some d) :
    Ordered d.2 ∧ (c.2.shuttingDownFlag = true → Marked d.2) ∧ ∀ result, d.1 = .done result → CleanedUp d.2 := by
  obtain ⟨hsafe, hordered⟩ := main.run_safe hrun
  obtain ⟨hsafe', hpath⟩ := hsafe.run Interferes.refl Interferes.trans interfere_interferes hrun'
  have hadvance := hordered.path hpath
  refine ⟨hadvance.ordered, fun hflag => ?_, fun result hdone => ?_⟩
  · have hflag' := hadvance.shuttingDownFlag hflag
    exact ⟨hadvance.ordered.shutdown hflag', hadvance.ordered.unready hflag', hflag'⟩
  · rw [hdone] at hsafe'
    exact hsafe'.returns Interferes.refl

/-- `Duration::from_secs(1)` -/
def oneSecond : Duration := ⟨1000000000, "1s"⟩

/-- A server that spawns a task, gets ready, runs one iteration and stops with what it has returned. -/
def oneIteration : Main String Unit :=
  .spawn (.setReady (.iteration oneSecond
    (.effect "publish" fun _ => .pending (.effect "mark" fun _ => .ready (.ok ()))) fun result => .cleanup result))

/-- The signal comes when the work has published; it drains. -/
def oneIterationMoves : List (Move Nat Event) :=
  [.own 0, .own 0, .own 0, .own 0, .own 0, .own 0, .own 7, .env .signal, .own 0, .own 0, .own 0]

/-- The work goes on, and the server stops; its task is aborted and joined. -/
def oneIterationRest : List (Move Nat Event) :=
  [.own 0, .own 8, .own 0, .own 0, .own 0, .own 0, .own 0,
    .env (.taskEnds 0 (.error ⟨true, "task 1 was cancelled"⟩)), .own 0, .own 0]

theorem server_shuts_down_orderly_oneIteration : ∃ s : Server String,
    Transition.run step (oneIteration.code, Server.init) (oneIterationMoves ++ oneIterationRest) =
      some (.done (.ok ()), s) ∧ s.log = [("publish", 7), ("mark", 8)] ∧ CleanedUp s := by
  obtain ⟨c, s, hrun, hrun', hlog⟩ : ∃ c s, Transition.run step (oneIteration.code, Server.init) oneIterationMoves =
      some c ∧ Transition.run step c oneIterationRest = some (.done (.ok ()), s) ∧
        s.log = [("publish", 7), ("mark", 8)] := ⟨_, _, rfl, rfl, rfl⟩
  refine ⟨s, ?_, hlog, (server_shuts_down_orderly oneIteration hrun hrun').2.2 _ rfl⟩
  rw [Transition.run_append, hrun]
  exact hrun'

/-! ## The calls of a server -/

/-- The states that servers are in. -/
def Reachable (s : Server ε) : Prop :=
  ∃ (τ : Type) (main : Main ε τ) (moves : List (Move Nat Event)) (p : Code ε (Except Report Unit)),
    Transition.run step (main.code, Server.init) moves = some (p, s)

theorem Reachable.ordered (h : Reachable s) : Ordered s := by
  obtain ⟨τ, main, moves, p, hrun⟩ := h
  exact (main.run_safe hrun).2

theorem networkCt_path (h : Relation.ReflTransGen (fun s t : Server ε => Interferes s t ∨ Quiet s t) s t) :
    t.networkCt = s.networkCt := by
  induction h with
  | refl => rfl
  | tail _ hstep ih =>
    rcases hstep with hR | hG
    · exact hR.networkCt.trans ih
    · exact hG.network.trans ih

/-- What a call that leaves the network alone does in a run. -/
theorem QuietSafe.run {Q : α → Server ε → Prop} {p : Code ε α} (h : QuietSafe Q p s) {moves : List (Move Nat Event)}
    {c : Code ε α × Server ε} (hrun : Transition.run step (p, s) moves = some c) :
    c.2.networkCt = s.networkCt ∧ ∀ a, c.1 = .done a → Q a c.2 := by
  obtain ⟨hsafe, hpath⟩ := Safe.run Interferes.refl Interferes.trans interfere_interferes h hrun
  refine ⟨networkCt_path hpath, fun a ha => ?_⟩
  rw [ha] at hsafe
  exact hsafe.returns Interferes.refl

/-- **Every background task is accounted for.** In every run of the cleanup no task is joined while one runs that was
not aborted. When it returns, the network is cancelled, the tasks were aborted, and all tasks of the set are joined,
each once; the result that it was given is kept, and otherwise it returns the failure of the first task, in the order in
which they were joined, that was not cancelled. A check of the tasks between the iterations reports the task that it
takes out of the set, and says `Ok` only when none has ended. -/
theorem background_tasks_accounted (hreach : Reachable s) (result : Except Report Unit) :
    (∀ moves c, Transition.run step (cleanup result, s) moves = some c →
      (c.2.joined = s.joined ∨ AllAborted c.2) ∧ ∀ r, c.1 = .done r →
        CleanedUp c.2 ∧ c.2.log = s.log ∧ ∃ results, c.2.joined = s.joined ++ results ∧ EndedWith s.tasks results ∧
          r = andCleanup result (results.findSome? cleanupFailure)) ∧
    ∀ moves c, Transition.run step (checkBackgroundTasks, s) moves = some c → ∀ r, c.1 = .done r →
      c.2.networkCt = s.networkCt ∧ TasksChecked s c.2 r := by
  refine ⟨fun moves c hrun => ?_, fun moves c hrun r hr => ?_⟩
  · obtain ⟨hsafe, hpath⟩ := (cleanup_safe result hreach.ordered).run Interferes.refl Interferes.trans
      interfere_interferes hrun
    refine ⟨joined_path hpath, fun r hr => ?_⟩
    rw [hr] at hsafe
    exact hsafe.returns Interferes.refl
  · obtain ⟨hnetwork, hreturn⟩ := (checkBackgroundTasks_safe hreach.ordered).run hrun
    exact ⟨hnetwork, (hreturn r hr).2⟩

/-- A server that is ready and has two tasks. -/
def twoTasks : Server String :=
  { (Server.init : Server String) with readyFlag := true, tasks := [.running false, .running false] }

theorem twoTasks_reachable : Reachable twoTasks :=
  ⟨Unit, .spawn (.spawn (.setReady (.cleanup (.ok ())))), [.own 0, .own 0, .own 0, .own 0, .own 0], _, rfl⟩

/-- One task of the server panics while it is aborted, the other one is cancelled. -/
def panickedTask : TaskResult := .error ⟨false, "task 1 panicked"⟩

def cancelledTask : TaskResult := .error ⟨true, "task 2 was cancelled"⟩

theorem background_tasks_accounted_panicked : ∃ c : Code String (Except Report Unit) × Server String,
    Transition.run step (cleanup (.ok ()), twoTasks) [.own 0, .own 0, .own 0, .own 0, .own 0,
      .env (.taskEnds 1 cancelledTask), .own 1, .env (.taskEnds 0 panickedTask), .own 0, .own 0] = some c ∧
      CleanedUp c.2 ∧ c.2.joined = [cancelledTask, panickedTask] ∧
      c.1 = .done (.error ["anon stats background task failed during cleanup: task 1 panicked"]) := by
  obtain ⟨c, hrun, hjoined, hdone⟩ : ∃ c, Transition.run step (cleanup (.ok ()), twoTasks) [.own 0, .own 0, .own 0,
      .own 0, .own 0, .env (.taskEnds 1 cancelledTask), .own 1, .env (.taskEnds 0 panickedTask), .own 0, .own 0] =
        some c ∧ c.2.joined = [cancelledTask, panickedTask] ∧
      c.1 = .done (.error ["anon stats background task failed during cleanup: task 1 panicked"]) := ⟨_, rfl, rfl, rfl⟩
  refine ⟨c, hrun, ?_, hjoined, hdone⟩
  exact (((background_tasks_accounted twoTasks_reachable (.ok ())).1 _ c hrun).2 _ hdone).1

end AmpcCommon.Lifecycle
