import AmpcCommon.Startup.Sqs
import Mathlib.Data.List.Infix
import Mathlib.Data.List.OfFn
import Mathlib.Order.MinMax

/-!
# Queue synchronisation aligns the queues

The delete loop removes messages from the front of a queue while their numbers are below the target
(`deleteLoop_spec`). The queues are suffixes of one stream of increasing numbers, so the queue with the largest head is
a suffix of the others, and the loop stops exactly where it begins (`eq_of_suffix_of_head`).
-/

namespace AmpcCommon.Startup

section Max

/-- The largest of some numbers, all of them there. -/
theorem max?_map_some (ns : List U128) : (ns.map some).max? = ns.max?.map some := by
  cases ns with
  | nil => rfl
  | cons n ns =>
    have hfold : ∀ (ns : List U128) (n : U128), (ns.map some).foldl max (some n) = some (ns.foldl max n) := by
      intro ns
      induction ns with
      | nil => exact fun n => rfl
      | cons m ns ih => exact fun n => ih (max n m)
    exact congrArg some (hfold ns n)

theorem exists_map_some {ns : List (Option U128)} (h : ¬ ns.any Option.isNone = true) :
    ∃ ks : List U128, ns = ks.map some := by
  induction ns with
  | nil => exact ⟨[], rfl⟩
  | cons n ns ih =>
    rw [List.any_cons, Bool.or_eq_true, not_or] at h
    obtain ⟨ks, rfl⟩ := ih h.2
    cases n with
    | none => exact absurd rfl h.1
    | some k => exact ⟨k :: ks, rfl⟩

theorem max?_all_none {ns : List (Option U128)} (hnone : ∀ n ∈ ns, n = none) {m : Option U128} (h : ns.max? = some m) :
    m = none := by
  cases ns with
  | nil => cases h
  | cons n ns =>
    have hfold : ∀ ns : List (Option U128), (∀ n ∈ ns, n = none) → ns.foldl max none = none := by
      intro ns hns
      induction ns with
      | nil => rfl
      | cons n ns ih =>
        rw [List.foldl_cons, hns n List.mem_cons_self]
        exact ih fun n' hn' => hns n' (List.mem_cons_of_mem _ hn')
    obtain ⟨rfl, hns⟩ := List.forall_mem_cons.mp hnone
    exact (Option.some.inj h).symm.trans (hfold ns hns)

instance : Std.LawfulOrderMax U128 :=
  .of_max_le_iff (fun _ _ _ => max_le_iff) fun a b => (le_total a b).elim (fun h => Or.inr (max_eq_right h))
    fun h => Or.inl (max_eq_left h)

/-- Either all queues are empty, or none is and the result is their largest head. -/
theorem maxSnsSequenceNum_spec {sequenceNums : List (Option U128)} {target : Option U128}
    (h : maxSnsSequenceNum sequenceNums = .ok target) :
    (target = none ∧ ∀ n ∈ sequenceNums, n = none) ∨
      ∃ t, target = some t ∧ some t ∈ sequenceNums ∧ ∀ n ∈ sequenceNums, ∃ k, n = some k ∧ k ≤ t := by
  unfold maxSnsSequenceNum at h
  dsimp only at h
  split_ifs at h with hmixed
  · cases h
  · cases hmax : sequenceNums.max? with
    | none =>
      rw [hmax] at h
      cases h
    | some m =>
      rw [hmax] at h
      obtain rfl : m = target := Except.ok.inj h
      by_cases hempty : sequenceNums.any Option.isNone = true
      · -- all queues are empty
        left
        have hnone : ∀ n ∈ sequenceNums, n = none := by
          intro n hn
          by_contra hsome
          refine hmixed ?_
          rw [hempty, Bool.true_and]
          exact List.any_eq_true.mpr ⟨n, hn, Option.isSome_iff_ne_none.mpr hsome⟩
        exact ⟨max?_all_none hnone hmax, hnone⟩
      · right
        obtain ⟨ns, rfl⟩ := exists_map_some hempty
        rw [max?_map_some] at hmax
        obtain ⟨t, ht, rfl⟩ := Option.map_eq_some_iff.mp hmax
        rw [List.max?_eq_some_iff] at ht
        refine ⟨t, rfl, List.mem_map_of_mem ht.1, ?_⟩
        intro n hn
        obtain ⟨k, hk, rfl⟩ := List.mem_map.mp hn
        exact ⟨k, rfl, ht.2 k hk⟩

end Max

variable {fromStr : String → Except String SNSMessage} {number : QueueMessage → U128}

/-- The sequence number at the head of a queue. -/
def Queue.headNum (number : QueueMessage → U128) (q : Queue) : Option U128 := q.messages.head?.map number

theorem sequenceNum_received {m : QueueMessage} {n : U128} (h : sequenceNum fromStr m.received = .ok n) :
    ∃ message, fromStr m.body = .ok message ∧ parseNumber message = .ok n := by
  unfold sequenceNum unwrap QueueMessage.received at h
  cases hbody : fromStr m.body with
  | error e =>
    simp only [hbody, Outcome.ok_bind] at h
    cases h
  | ok message =>
    simp only [hbody, Outcome.ok_bind] at h
    exact ⟨message, rfl, h⟩

/-- A node reads the number at the head of its queue, or nothing after an empty poll, and the head stays visible. -/
theorem getNextSnsSeqNum_client {q : Queue}
    (hnumber : ∀ m ∈ q.messages, sequenceNum fromStr m.received = .ok (number m)) (hvisible : q.visible = true) :
    ∃ n q', getNextSnsSeqNum Queue.client fromStr q = (.ok n, q') ∧ q'.messages = q.messages ∧ q'.visible = true ∧
      (n = none ∨ n = q.headNum number) := by
  obtain ⟨messages, visible, polls⟩ := q
  obtain rfl : visible = true := hvisible
  cases messages with
  | nil => cases polls <;> exact ⟨_, _, rfl, rfl, rfl, .inl rfl⟩
  | cons m rest =>
    obtain ⟨message, hbody, hparse⟩ := sequenceNum_received (hnumber m List.mem_cons_self)
    cases polls with
    | nil => exact ⟨_, _, rfl, rfl, rfl, .inl rfl⟩
    | cons shown polls =>
      cases shown with
      | false => exact ⟨_, _, rfl, rfl, rfl, .inl rfl⟩
      | true =>
        refine ⟨some (number m), ⟨m :: rest, true, polls⟩, ?_, rfl, rfl, .inr rfl⟩
        unfold getNextSnsSeqNum
        simp only [Queue.client, Queue.poll, QueueMessage.received, and_self, if_true, Option.getD_some, hbody, hparse]
        rfl

/-- A long poll of a queue whose head is visible shows nothing or the head, which is in flight then. -/
theorem receiveMessage_cases {q : Queue} (hvisible : q.visible = true) :
    Queue.client.receiveMessage none q = (.ok none, { q with polls := q.polls.tail }) ∨
      ∃ m rest, q.messages = m :: rest ∧ Queue.client.receiveMessage none q =
        (.ok (some [m.received]), { q with polls := q.polls.tail, visible := false }) := by
  obtain ⟨messages, visible, polls⟩ := q
  obtain rfl : visible = true := hvisible
  cases messages with
  | nil =>
    left
    cases polls <;> rfl
  | cons m rest =>
    cases polls with
    | nil => exact Or.inl rfl
    | cons shown polls =>
      cases shown with
      | false => exact Or.inl rfl
      | true => exact Or.inr ⟨m, rest, rfl, rfl⟩

/-- The message in flight is deleted, or it becomes visible again. -/
theorem handleMessage_eq {target : U128} {q : Queue} {m : QueueMessage} {rest : List QueueMessage}
    (hnumber : sequenceNum fromStr m.received = .ok (number m)) (hmessages : q.messages = m :: rest)
    (hflight : q.visible = false) :
    handleMessage Queue.client fromStr target m.received q =
      if number m < target then (none, { q with messages := rest, visible := true })
      else (some (.ok ()), { q with visible := true }) := by
  obtain ⟨messages, visible, polls⟩ := q
  obtain rfl : messages = m :: rest := hmessages
  obtain rfl : visible = false := hflight
  have hhandle : unwrap m.received.receiptHandle = .ok m.id := rfl
  have hdelete : Queue.client.deleteMessage m.id ⟨m :: rest, false, polls⟩ = (.ok (), ⟨rest, true, polls⟩) :=
    if_pos ⟨rfl, Bool.false_ne_true⟩
  have hchange : Queue.client.changeMessageVisibility m.id 0 ⟨m :: rest, false, polls⟩ =
      (.ok (), ⟨m :: rest, true, polls⟩) := if_pos ⟨rfl, rfl⟩
  unfold handleMessage
  rw [hnumber, hhandle]
  dsimp only
  rw [hdelete, hchange]

/-- The loop deletes the messages below the target at the front of the queue. -/
theorem deleteLoop_spec {target : U128} {fuel : Nat} {q q' : Queue} {result : Outcome Unit}
    (hnumber : ∀ m ∈ q.messages, sequenceNum fromStr m.received = .ok (number m)) (hvisible : q.visible = true)
    (h : deleteLoop Queue.client fromStr target fuel q = some (result, q')) :
    result = .ok () ∧ q'.visible = true ∧
      (∃ deleted, q.messages = deleted ++ q'.messages ∧ ∀ m ∈ deleted, number m < target) ∧
      ∃ m rest, q'.messages = m :: rest ∧ target ≤ number m := by
  induction fuel generalizing q with
  | zero => cases h
  | succ fuel ih =>
    unfold deleteLoop at h
    rcases receiveMessage_cases hvisible with hpoll | ⟨m, rest, hmessages, hpoll⟩
    · rw [hpoll] at h
      have h : deleteLoop Queue.client fromStr target fuel { q with polls := q.polls.tail } = some (result, q') := h
      exact ih (q := { q with polls := q.polls.tail }) hnumber hvisible h
    · have hm : sequenceNum fromStr m.received = .ok (number m) := hnumber m (hmessages ▸ List.mem_cons_self)
      rw [hpoll] at h
      dsimp only at h
      have hhandle : handleMessage Queue.client fromStr target m.received
          { q with polls := q.polls.tail, visible := false } = _ := handleMessage_eq hm hmessages rfl
      rw [hhandle] at h
      by_cases hlt : number m < target
      · rw [if_pos hlt] at h
        have hrest : ∀ m' ∈ rest, sequenceNum fromStr m'.received = .ok (number m') := fun m' hm' =>
          hnumber m' (hmessages ▸ List.mem_cons_of_mem _ hm')
        obtain ⟨hok, hvisible', ⟨deleted, hdeleted, hbelow⟩, hhead⟩ := ih hrest rfl h
        refine ⟨hok, hvisible', ⟨m :: deleted, ?_, List.forall_mem_cons.mpr ⟨hlt, hbelow⟩⟩, hhead⟩
        rw [hmessages]
        exact congrArg (m :: ·) hdeleted
      · rw [if_neg hlt] at h
        cases h
        exact ⟨rfl, rfl, ⟨[], rfl, List.forall_mem_nil _⟩, m, rest, hmessages, not_lt.mp hlt⟩

/-- The loop ends when enough of the long polls show the head. -/
theorem deleteLoop_ends {target : U128} {messages : List QueueMessage} {polls : List Bool}
    (hnumber : ∀ m ∈ messages, sequenceNum fromStr m.received = .ok (number m))
    (htarget : ∃ m ∈ messages, target ≤ number m)
    (hpolls : (messages.takeWhile fun m => number m < target).length < polls.count true) :
    ∃ q', deleteLoop Queue.client fromStr target polls.length ⟨messages, true, polls⟩ = some (.ok (), q') := by
  induction polls generalizing messages with
  | nil => exact absurd hpolls (Nat.not_lt_zero _)
  | cons shown polls ih =>
    obtain ⟨m, hm, hle⟩ := htarget
    cases messages with
    | nil => cases hm
    | cons first rest =>
      cases shown with
      | false =>
        rw [List.count_cons_of_ne (by decide)] at hpolls
        obtain ⟨q', hq'⟩ := ih hnumber ⟨m, hm, hle⟩ hpolls
        exact ⟨q', hq'⟩
      | true =>
        have hfirst := hnumber first List.mem_cons_self
        have hpoll : Queue.client.receiveMessage none ⟨first :: rest, true, true :: polls⟩ =
            (.ok (some [first.received]), ⟨first :: rest, false, polls⟩) := rfl
        rw [List.length_cons, deleteLoop, hpoll]
        dsimp only
        rw [handleMessage_eq hfirst rfl rfl]
        by_cases hlt : number first < target
        · rw [if_pos hlt]
          have htake : (first :: rest).takeWhile (fun m => decide (number m < target)) =
              first :: rest.takeWhile fun m => decide (number m < target) :=
            List.takeWhile_cons_of_pos (decide_eq_true hlt)
          rw [htake, List.count_cons_self, List.length_cons] at hpolls
          have hrest : m ∈ rest := by
            rcases List.mem_cons.mp hm with rfl | hm
            · exact absurd hlt (not_lt.mpr hle)
            · exact hm
          exact ih (fun m hm => hnumber m (List.mem_cons_of_mem _ hm)) ⟨m, hrest, hle⟩ (Nat.lt_of_succ_lt_succ hpolls)
        · rw [if_neg hlt]
          exact ⟨_, rfl⟩

/-- Two suffixes of an increasing stream that begin with the same number are equal. -/
theorem eq_of_suffix_of_head {stream l₁ l₂ : List QueueMessage} (hsorted : stream.Pairwise (number · < number ·))
    (h₁ : l₁ <:+ stream) (h₂ : l₂ <:+ stream) {t : U128} (ht₁ : l₁.head?.map number = some t)
    (ht₂ : l₂.head?.map number = some t) : l₁ = l₂ := by
  -- a proper suffix begins with a larger number
  have hproper : ∀ {l l' : List QueueMessage}, l <:+ l' → l' <:+ stream → l.head?.map number = some t →
      l'.head?.map number = some t → l = l' := by
    rintro l l' ⟨pre, rfl⟩ hl' ht ht'
    cases pre with
    | nil => rfl
    | cons p pre =>
      obtain ⟨m, hm, hmt⟩ := Option.map_eq_some_iff.mp ht
      have hpairs := List.pairwise_cons.mp (hsorted.sublist hl'.sublist)
      have hlt := hpairs.1 m (List.mem_append_right _ (List.mem_of_head? hm))
      rw [hmt, Option.some.inj ht'] at hlt
      exact absurd hlt (lt_irrefl t)
  rcases List.suffix_or_suffix_of_suffix h₁ h₂ with h | h
  · exact hproper h h₂ ht₁ ht₂
  · exact (hproper h h₁ ht₂ ht₁).symm

/-- A suffix that begins no later holds the number the other one begins with. -/
theorem exists_mem_of_head_le {stream l₁ l₂ : List QueueMessage} (hsorted : stream.Pairwise (number · < number ·))
    (h₁ : l₁ <:+ stream) (h₂ : l₂ <:+ stream) {t k : U128} (ht : l₁.head?.map number = some t)
    (hk : l₂.head?.map number = some k) (hle : k ≤ t) : ∃ m ∈ l₂, number m = t := by
  obtain ⟨m₁, hm₁, hmt⟩ := Option.map_eq_some_iff.mp ht
  obtain ⟨m₂, hm₂, hmk⟩ := Option.map_eq_some_iff.mp hk
  rcases List.suffix_or_suffix_of_suffix h₁ h₂ with h | ⟨pre, rfl⟩
  · exact ⟨m₁, h.mem (List.mem_of_head? hm₁), hmt⟩
  · cases pre with
    | nil =>
      obtain rfl : m₂ = m₁ := Option.some.inj (hm₂.symm.trans hm₁)
      exact ⟨m₂, List.mem_of_head? hm₂, hmt⟩
    | cons p pre =>
      obtain rfl : p = m₁ := Option.some.inj hm₁
      have hpairs := List.pairwise_cons.mp (hsorted.sublist h₁.sublist)
      have hlt := hpairs.1 m₂ (List.mem_append_right _ (List.mem_of_head? hm₂))
      rw [hmt, hmk] at hlt
      exact absurd hlt (not_lt.mpr hle)

/-- A queue after the synchronisation with the largest head `target`. -/
structure Aligned (number : QueueMessage → U128) (target : Option U128) (q q' : Queue) : Prop where
  /-- Only messages below the target were deleted. -/
  deleted : ∃ deleted, q.messages = deleted ++ q'.messages ∧ ∀ m ∈ deleted, ∃ t, target = some t ∧ number m < t
  /-- The target is at the head, or the queue is empty and so is the target. -/
  head : q'.headNum number = target
  visible : q'.visible = true
  /-- Nothing was deleted if the head was the target already. -/
  untouched : q.headNum number = target → q'.messages = q.messages

/-- The loop stops at the message with the target, if the queue has one. -/
theorem deleteLoop_aligned {t : U128} {fuel : Nat} {q q' : Queue} {result : Outcome Unit}
    (hnumber : ∀ m ∈ q.messages, sequenceNum fromStr m.received = .ok (number m)) (hvisible : q.visible = true)
    (hsorted : q.messages.Pairwise (number · < number ·)) (htarget : ∃ m ∈ q.messages, number m = t)
    (hhead : q.headNum number ≠ some t) (h : deleteLoop Queue.client fromStr t fuel q = some (result, q')) :
    result = .ok () ∧ Aligned number (some t) q q' := by
  obtain ⟨hok, hvisible', ⟨deleted, hdeleted, hbelow⟩, m, rest, hrest, hm⟩ := deleteLoop_spec hnumber hvisible h
  obtain ⟨m', hm', rfl⟩ := htarget
  have hfirst : number m = number m' := by
    rw [hdeleted, hrest, List.mem_append, List.mem_cons] at hm'
    rcases hm' with hm' | rfl | hm'
    · exact absurd (hbelow m' hm') (lt_irrefl _)
    · rfl
    · -- the messages behind the first one are larger
      rw [hdeleted, hrest, List.pairwise_append] at hsorted
      exact absurd ((List.pairwise_cons.mp hsorted.2.1).1 m' hm') (not_lt.mpr hm)
  refine ⟨hok, ⟨deleted, hdeleted, fun d hd => ⟨_, rfl, hbelow d hd⟩⟩, ?_, hvisible', fun heq => absurd heq hhead⟩
  unfold Queue.headNum
  rw [hrest]
  exact congrArg some hfirst

/-- **Queue synchronisation.** The queues of three nodes are suffixes of one stream of messages with increasing
sequence numbers. If the maximum of their heads can be taken, every run of the synchronisation that ends at a node ends
with `Ok`, has deleted messages below the maximum only and none where it was the head already, and leaves the message
with the maximum visible at the head; and all three queues are the same afterwards. -/
theorem queues_align (fromStr : String → Except String SNSMessage) (number : QueueMessage → U128)
    (stream : List QueueMessage) (hnumber : ∀ m ∈ stream, sequenceNum fromStr m.received = .ok (number m))
    (hsorted : stream.Pairwise (number · < number ·)) (q : Fin 3 → Queue) (hsuffix : ∀ i, (q i).messages <:+ stream)
    (hvisible : ∀ i, (q i).visible = true) (target : Option U128)
    (hmax : maxSnsSequenceNum (List.ofFn fun i => (q i).headNum number) = .ok target) :
    (∀ i fuel result q', deleteMessagesUntilSequenceNum Queue.client fromStr ((q i).headNum number) target fuel (q i) =
      some (result, q') → result = .ok () ∧ Aligned number target (q i) q') ∧
    ∀ i j fi fj ri rj qi qj,
      deleteMessagesUntilSequenceNum Queue.client fromStr ((q i).headNum number) target fi (q i) = some (ri, qi) →
      deleteMessagesUntilSequenceNum Queue.client fromStr ((q j).headNum number) target fj (q j) = some (rj, qj) →
      qi.messages = qj.messages := by
  have hheads : ∀ i, (q i).headNum number ∈ List.ofFn fun i => (q i).headNum number := fun i =>
    List.mem_ofFn.mpr ⟨i, rfl⟩
  have hall : ∀ i fuel result q', deleteMessagesUntilSequenceNum Queue.client fromStr ((q i).headNum number) target
      fuel (q i) = some (result, q') → result = .ok () ∧ Aligned number target (q i) q' := by
    intro i fuel result q' hrun
    unfold deleteMessagesUntilSequenceNum at hrun
    rcases maxSnsSequenceNum_spec hmax with ⟨rfl, hnone⟩ | ⟨t, rfl, ht, hle⟩
    · have hempty := hnone _ (hheads i)
      rw [hempty] at hrun
      cases hrun
      exact ⟨rfl, ⟨[], rfl, List.forall_mem_nil _⟩, hempty, hvisible i, fun _ => rfl⟩
    · dsimp only at hrun
      by_cases hhead : (q i).headNum number = some t
      · rw [if_pos hhead] at hrun
        cases hrun
        exact ⟨rfl, ⟨[], rfl, List.forall_mem_nil _⟩, hhead, hvisible i, fun _ => rfl⟩
      · rw [if_neg hhead] at hrun
        refine deleteLoop_aligned (fun m hm => hnumber m ((hsuffix i).mem hm)) (hvisible i)
          (hsorted.sublist (hsuffix i).sublist) ?_ hhead hrun
        obtain ⟨k, hk⟩ := List.mem_ofFn.mp ht
        obtain ⟨n, hn, hnt⟩ := hle _ (hheads i)
        exact exists_mem_of_head_le hsorted (hsuffix k) (hsuffix i) hk hn hnt
  refine ⟨hall, ?_⟩
  intro i j fi fj ri rj qi qj hi hj
  obtain ⟨-, ⟨di, hdi, -⟩, hheadi, -⟩ := hall i fi ri qi hi
  obtain ⟨-, ⟨dj, hdj, -⟩, hheadj, -⟩ := hall j fj rj qj hj
  have hsuffixi : qi.messages <:+ stream := List.IsSuffix.trans ⟨di, hdi.symm⟩ (hsuffix i)
  have hsuffixj : qj.messages <:+ stream := List.IsSuffix.trans ⟨dj, hdj.symm⟩ (hsuffix j)
  cases target with
  | none =>
    have hempty : ∀ q : Queue, q.headNum number = none → q.messages = [] := fun q hq =>
      List.head?_eq_none_iff.mp (Option.map_eq_none_iff.mp hq)
    rw [hempty qi hheadi, hempty qj hheadj]
  | some t => exact eq_of_suffix_of_head hsorted hsuffixi hsuffixj hheadi hheadj

/-- A message body as it is published. -/
def publishedBody (sequenceNumber : String) : String :=
  "\x7b\"Type\":\"Notification\",\"MessageId\":\"m\",\"SequenceNumber\":\"" ++ sequenceNumber ++
    "\",\"TopicArn\":\"t\",\"Message\":\"r\",\"Timestamp\":\"0\",\"UnsubscribeURL\":\"u\"," ++
    "\"MessageAttributes\":\x7b\x7d\x7d"

/-- A parser that knows three bodies. -/
def parseThree (body : String) : Except String SNSMessage :=
  match ["10", "11", "12"].find? fun n => body = publishedBody n with
  | some n => .ok ⟨n⟩
  | none => .error "expected value at line 1 column 1"

def threeMessages : List QueueMessage := ["10", "11", "12"].map fun n => ⟨n, publishedBody n⟩

/-- The first node is one message behind, the second two, and the third has the largest head. -/
def laggingQueues : Fin 3 → Queue := fun i =>
  ⟨threeMessages.drop [1, 0, 2][i.val], true, [false, true, true, false, true, true]⟩

/-- The id of a message is its number. -/
def idNumber (m : QueueMessage) : U128 :=
  match parseU128 m.id with
  | .ok n => n
  | .error _ => 0

set_option maxRecDepth 2000 in
theorem queues_align_lagging :
    threeMessages.Pairwise (idNumber · < idNumber ·) ∧
    ∀ i, ∃ q', deleteMessagesUntilSequenceNum Queue.client parseThree ((laggingQueues i).headNum idNumber) (some 12) 6
      (laggingQueues i) = some (.ok (), q') ∧ Aligned idNumber (some 12) (laggingQueues i) q' := by
  have h10 : idNumber ⟨"10", publishedBody "10"⟩ = 10 := rfl
  have h11 : idNumber ⟨"11", publishedBody "11"⟩ = 11 := rfl
  have h12 : idNumber ⟨"12", publishedBody "12"⟩ = 12 := rfl
  have hlt₁ : idNumber ⟨"10", publishedBody "10"⟩ < idNumber ⟨"11", publishedBody "11"⟩ := by
    rw [h10, h11]
    exact Fin.lt_def.mpr (by decide)
  have hlt₂ : idNumber ⟨"11", publishedBody "11"⟩ < idNumber ⟨"12", publishedBody "12"⟩ := by
    rw [h11, h12]
    exact Fin.lt_def.mpr (by decide)
  have hseq10 : sequenceNum parseThree ⟨some (publishedBody "10"), some "10"⟩ = .ok 10 := rfl
  have hseq11 : sequenceNum parseThree ⟨some (publishedBody "11"), some "11"⟩ = .ok 11 := rfl
  have hseq12 : sequenceNum parseThree ⟨some (publishedBody "12"), some "12"⟩ = .ok 12 := rfl
  have hnumber : ∀ m ∈ threeMessages, sequenceNum parseThree m.received = .ok (idNumber m) :=
    List.forall_mem_cons.mpr ⟨hseq10.trans (congrArg _ h10.symm), List.forall_mem_cons.mpr
      ⟨hseq11.trans (congrArg _ h11.symm), List.forall_mem_singleton.mpr (hseq12.trans (congrArg _ h12.symm))⟩⟩
  have hsorted : threeMessages.Pairwise (idNumber · < idNumber ·) :=
    .cons (List.forall_mem_cons.mpr ⟨hlt₁, List.forall_mem_cons.mpr ⟨hlt₁.trans hlt₂, List.forall_mem_nil _⟩⟩)
      (.cons (List.forall_mem_cons.mpr ⟨hlt₂, List.forall_mem_nil _⟩) (.cons (List.forall_mem_nil _) .nil))
  have hheads : ∀ i, (laggingQueues i).headNum idNumber = some ([11, 10, 12].getD i.val 0)
    | 0 => congrArg some h11
    | 1 => congrArg some h10
    | 2 => congrArg some h12
  have hmax : maxSnsSequenceNum (List.ofFn fun i => (laggingQueues i).headNum idNumber) = .ok (some 12) := by
    rw [funext hheads]
    rfl
  have hsuffix : ∀ i, (laggingQueues i).messages <:+ threeMessages := fun i => List.drop_suffix _ _
  have halign := queues_align parseThree idNumber threeMessages hnumber hsorted laggingQueues hsuffix (fun i => rfl)
    (some 12) hmax
  have hlarge : ∀ i, ⟨"12", publishedBody "12"⟩ ∈ (laggingQueues i).messages
    | 0 => .tail _ (.head _)
    | 1 => .tail _ (.tail _ (.head _))
    | 2 => .head _
  refine ⟨hsorted, fun i => ?_⟩
  obtain ⟨q', hrun⟩ : ∃ q', deleteMessagesUntilSequenceNum Queue.client parseThree
      ((laggingQueues i).headNum idNumber) (some 12) 6 (laggingQueues i) = some (.ok (), q') := by
    unfold deleteMessagesUntilSequenceNum
    dsimp only
    split_ifs with hhead
    · exact ⟨_, rfl⟩
    · have hshort : ((laggingQueues i).messages.takeWhile fun m => idNumber m < 12).length ≤ 3 :=
        (List.takeWhile_sublist _).length_le.trans (hsuffix i).length_le
      have hpolls : ((laggingQueues i).messages.takeWhile fun m => idNumber m < 12).length <
          [false, true, true, false, true, true].count true := Nat.lt_succ_of_le hshort
      exact deleteLoop_ends (fun m hm => hnumber m ((hsuffix i).mem hm)) ⟨_, hlarge i, h12.ge⟩ hpolls
  exact ⟨q', hrun, (halign.1 i 6 _ q' hrun).2⟩

end AmpcCommon.Startup
