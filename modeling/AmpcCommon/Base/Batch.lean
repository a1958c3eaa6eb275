import Mathlib.Data.List.Basic
import Mathlib.Data.List.ReduceOption
import Mathlib.Tactic.Common

/-!
# Batches

A writer takes a message from its queue, waiting for one if it has to, adds the messages that are there to the same
batch as long as it may, and writes the batch. The queue is what the writer finds in it at its successive looks, `none`
where it is empty, so a list of such looks is one way the messages can come in. However the messages fall into
batches, the batches are the messages one after the other (`Batch.write_eq`).
-/

namespace Batch

variable {β ε M : Type} (push : List β → M → Except ε (List β)) (more : Nat → Bool) (full : List β → Bool)

/-- Add to a batch of `count` messages the messages that are there, as long as `more` allows another one, up to the
first one that makes the batch `full`. -/
def fill : Nat → List β → List (Option M) → Except ε (List β × List (Option M))
  | _, batch, [] => .ok (batch, [])
  | count, batch, next :: queue =>
    if more count then
      match next with
      | some m =>
        match push batch m with
        | .error e => .error e
        | .ok batch => if full batch then .ok (batch, queue) else fill (count + 1) batch queue
      | none => .ok (batch, queue)
    else .ok (batch, next :: queue)

theorem fill_length {count : Nat} {batch batch' : List β} {queue rest : List (Option M)}
    (h : fill push more full count batch queue = .ok (batch', rest)) : rest.length ≤ queue.length := by
  induction queue generalizing count batch with
  | nil =>
    cases h
    exact Nat.le_refl _
  | cons next queue ih =>
    unfold fill at h
    split_ifs at h with hmore
    · cases next with
      | none =>
        cases h
        exact Nat.le_succ _
      | some m =>
        dsimp only at h
        split at h
        next => cases h
        next batch _ =>
          split_ifs at h
          · cases h
            exact Nat.le_succ _
          · exact Nat.le_trans (ih h) (Nat.le_succ _)
    · cases h
      exact Nat.le_refl _

/-- The batches that are written. -/
def write : List (Option M) → Except ε (List (List β))
  | [] => .ok []
  -- the writer waits for a message
  | none :: queue => write queue
  | some m :: queue =>
    match push [] m with
    | .error e => .error e
    | .ok batch =>
      match _hfill : fill push more full 1 batch queue with
      | .error e => .error e
      | .ok (batch, rest) => (write rest).map (batch :: ·)
termination_by queue => queue.length
decreasing_by
  · simp
  · have := fill_length push more full _hfill
    simp only [List.length_cons]
    omega

variable {push} {frame : M → List β}

theorem fill_eq {queue : List (Option M)}
    (hpush : ∀ m ∈ queue.reduceOption, ∀ batch, push batch m = .ok (batch ++ frame m)) (count : Nat) (batch : List β) :
    ∃ taken rest, queue = taken ++ rest ∧ fill push more full count batch queue =
      .ok (batch ++ (taken.reduceOption.map frame).flatten, rest) := by
  induction queue generalizing count batch with
  | nil => exact ⟨[], [], rfl, by simp [fill, List.reduceOption]⟩
  | cons next queue ih =>
    by_cases hmore : more count = true
    · cases next with
      | none => exact ⟨[none], queue, rfl, by simp [fill, hmore, List.reduceOption]⟩
      | some m =>
        rw [List.reduceOption_cons_of_some] at hpush
        have hm := hpush m List.mem_cons_self batch
        by_cases hfull : full (batch ++ frame m) = true
        · refine ⟨[some m], queue, rfl, ?_⟩
          rw [fill, if_pos hmore, hm]
          dsimp only
          rw [if_pos hfull]
          simp
        · obtain ⟨taken, rest, rfl, hfill⟩ :=
            ih (fun m' hm' => hpush m' (List.mem_cons_of_mem _ hm')) (count + 1) (batch ++ frame m)
          refine ⟨some m :: taken, rest, rfl, ?_⟩
          rw [fill, if_pos hmore, hm]
          dsimp only
          rw [if_neg hfull, hfill, List.reduceOption_cons_of_some, List.map_cons, List.flatten_cons, List.append_assoc]
    · exact ⟨[], next :: queue, rfl, by simp [fill, hmore, List.reduceOption]⟩

/-- The batches are the messages of the queue, in order. -/
theorem write_eq (queue : List (Option M))
    (hpush : ∀ m ∈ queue.reduceOption, ∀ batch, push batch m = .ok (batch ++ frame m)) :
    ∃ batches, write push more full queue = .ok batches ∧
      batches.flatten = (queue.reduceOption.map frame).flatten := by
  induction hlen : queue.length using Nat.strongRecOn generalizing queue with
  | _ len ih =>
    subst hlen
    cases queue with
    | nil => exact ⟨[], by simp [write], rfl⟩
    | cons next queue =>
      cases next with
      | none =>
        obtain ⟨batches, hbatches, hflat⟩ := ih queue.length (Nat.lt_succ_self _) queue hpush rfl
        refine ⟨batches, ?_, hflat⟩
        rw [write]
        exact hbatches
      | some m =>
        rw [List.reduceOption_cons_of_some] at hpush ⊢
        have hqueue : ∀ m' ∈ queue.reduceOption, ∀ batch, push batch m' = .ok (batch ++ frame m') :=
          fun m' hm' => hpush m' (List.mem_cons_of_mem _ hm')
        obtain ⟨taken, rest, rfl, hfill⟩ := fill_eq more full hqueue 1 (frame m)
        rw [List.reduceOption_append] at hqueue
        obtain ⟨batches, hbatches, hflat⟩ := ih rest.length (by rw [List.length_cons, List.length_append]; omega) rest
          (fun m' hm' => hqueue m' (List.mem_append_right _ hm')) rfl
        have hfirst : push [] m = .ok (frame m) := hpush m List.mem_cons_self []
        refine ⟨(frame m ++ (taken.reduceOption.map frame).flatten) :: batches, ?_, ?_⟩
        · rw [write]
          split
          next e he =>
            rw [hfirst] at he
            cases he
          next batch hbatch =>
            rw [hfirst] at hbatch
            cases hbatch
            split
            next e he =>
              rw [hfill] at he
              cases he
            next batch' rest' hbatch' =>
              rw [hfill] at hbatch'
              cases hbatch'
              rw [hbatches]
              rfl
        · rw [List.flatten_cons, hflat, List.reduceOption_append, List.map_cons, List.map_append, List.flatten_cons,
            List.flatten_append, List.append_assoc]

end Batch
