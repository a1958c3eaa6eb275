import AmpcCommon.Batches.Entries
import Mathlib.Data.Fin.VecNotation
import Mathlib.Tactic.FinCases

/-!
# Valid entries of a batch, proofs

The accumulator of `valid_entries` has the length of the own list, and the loop walks the lists of the peers. The three
servers merge their flags into one list exactly when their lists have the same length (`valid_entries_correct_iff`).
-/

namespace AmpcCommon.Batches

open Startup BatchSyncEntriesResult

/-! ## Merging -/

section Merge

variable {acc acc' entries : List Bool}

theorem length_setInvalid {i : Nat} (h : setInvalid acc i = .ok acc') : acc'.length = acc.length := by
  unfold setInvalid at h
  by_cases hi : i < acc.length
  · rw [if_pos hi] at h
    cases h
    exact List.length_set
  · rw [if_neg hi] at h
    cases h

/-- The entries of a list that are false are all positions of the accumulator. -/
def Fits (n : Nat) (entries : List Bool) : Prop := ∀ i, entries[i]? = some false → i < n

theorem fits_of_length_le {n : Nat} (h : entries.length ≤ n) : Fits n entries := by
  intro i hi
  obtain ⟨hlt, -⟩ := List.getElem?_eq_some_iff.mp hi
  exact hlt.trans_le h

/-- The loop over one list, from the position `n` on. -/
theorem clearLoop_ok (n : Nat) (hfits : ∀ i, entries[i]? = some false → n + i < acc.length) :
    ∃ acc', (entries.zipIdx n).foldlM (fun acc (entry, i) => if ¬ entry then setInvalid acc i else .ok acc) acc =
        .ok acc' ∧ acc'.length = acc.length ∧
      ∀ k : Nat, acc'[k]? = some true ↔ acc[k]? = some true ∧ ∀ i, n + i = k → entries[i]? ≠ some false := by
  induction entries generalizing acc n with
  | nil => exact ⟨acc, rfl, rfl, by simp⟩
  | cons entry entries ih =>
    have hrest : ∀ i, entries[i]? = some false → n + 1 + i < acc.length := by
      intro i hi
      have := hfits (i + 1) hi
      omega
    have hshift : ∀ k, (∀ i, n + i = k → (entry :: entries)[i]? ≠ some false) ↔
        (k = n → entry = true) ∧ ∀ i, n + 1 + i = k → entries[i]? ≠ some false := by
      intro k
      constructor
      · intro h
        refine ⟨fun hk => ?_, fun i hi => h (i + 1) (by omega)⟩
        have hzero := h 0 (by omega)
        simpa using hzero
      · rintro ⟨hfirst, hnext⟩ i hi
        cases i with
        | zero => simp [hfirst hi.symm]
        | succ i => exact hnext i (by omega)
    cases entry with
    | true =>
      obtain ⟨acc', hfold, hlen, hget⟩ := ih (n + 1) hrest
      refine ⟨acc', hfold, hlen, fun k => ?_⟩
      rw [hget, hshift]
      simp
    | false =>
      have hn : n < acc.length := hfits 0 rfl
      have hset : (acc.set n false).length = acc.length := List.length_set
      obtain ⟨acc', hfold, hlen, hget⟩ := ih (n + 1) (hset ▸ hrest)
      refine ⟨acc', ?_, hlen.trans List.length_set, fun k => ?_⟩
      · show setInvalid acc n >>= _ = _
        rw [setInvalid, if_pos hn]
        exact hfold
      · rw [hget, hshift, List.getElem?_set]
        by_cases hk : n = k
        · subst hk
          simp [hn]
        · simp [hk, Ne.symm hk]

theorem clearInvalid_ok (hfits : Fits acc.length entries) :
    ∃ acc', clearInvalid acc entries = .ok acc' ∧ acc'.length = acc.length ∧
      ∀ k : Nat, acc'[k]? = some true ↔ acc[k]? = some true ∧ entries[k]? ≠ some false := by
  obtain ⟨acc', hfold, hlen, hget⟩ := clearLoop_ok 0 (fun i hi => (Nat.zero_add i).symm ▸ hfits i hi)
  refine ⟨acc', hfold, hlen, fun k => ?_⟩
  rw [hget]
  simp

theorem length_clearInvalid (h : clearInvalid acc entries = .ok acc') : acc'.length = acc.length := by
  unfold clearInvalid at h
  generalize entries.zipIdx = l at h
  induction l generalizing acc with
  | nil =>
    cases h
    rfl
  | cons x l ih =>
    obtain ⟨entry, i⟩ := x
    obtain ⟨acc₁, hstep, hrest⟩ := Outcome.bind_eq_ok.mp h
    rw [ih hrest]
    dsimp only at hstep
    by_cases hentry : ¬ entry = true
    · rw [if_pos hentry] at hstep
      exact length_setInvalid hstep
    · rw [if_neg hentry] at hstep
      cases hstep
      rfl

/-- The loop over the lists of all states. -/
theorem merge_ok {lists : List (List Bool)} (hfits : ∀ entries ∈ lists, Fits acc.length entries) :
    ∃ acc', lists.foldlM clearInvalid acc = .ok acc' ∧ acc'.length = acc.length ∧
      ∀ k : Nat, acc'[k]? = some true ↔ acc[k]? = some true ∧ ∀ entries ∈ lists, entries[k]? ≠ some false := by
  induction lists generalizing acc with
  | nil => exact ⟨acc, rfl, rfl, by simp⟩
  | cons entries lists ih =>
    have hrest : ∀ {acc₁ : List Bool}, acc₁.length = acc.length → ∀ entries ∈ lists, Fits acc₁.length entries := by
      intro acc₁ hlen₁ l hl
      rw [hlen₁]
      exact hfits l (List.mem_cons_of_mem _ hl)
    obtain ⟨acc₁, hclear, hlen₁, hget₁⟩ := clearInvalid_ok (hfits entries List.mem_cons_self)
    obtain ⟨acc', hfold, hlen, hget⟩ := ih (hrest hlen₁)
    refine ⟨acc', ?_, hlen.trans hlen₁, fun k => ?_⟩
    · show clearInvalid acc entries >>= _ = _
      rw [hclear]
      exact hfold
    · rw [hget, hget₁, List.forall_mem_cons, and_assoc]

theorem length_merge {lists : List (List Bool)} (h : lists.foldlM clearInvalid acc = .ok acc') :
    acc'.length = acc.length := by
  induction lists generalizing acc with
  | nil =>
    cases h
    rfl
  | cons entries lists ih =>
    obtain ⟨acc₁, hclear, hrest⟩ := Outcome.bind_eq_ok.mp h
    rw [ih hrest, length_clearInvalid hclear]

/-- Flags of the same length that are true at the same positions. -/
theorem eq_of_true_iff {l l' : List Bool} (hlen : l.length = l'.length)
    (h : ∀ k : Nat, l[k]? = some true ↔ l'[k]? = some true) : l = l' := by
  refine List.ext_getElem hlen fun k hk hk' => ?_
  have hget := h k
  rw [List.getElem?_eq_getElem hk, List.getElem?_eq_getElem hk', Option.some.injEq, Option.some.injEq] at hget
  exact Bool.eq_iff_iff.mpr hget

end Merge

/-! ## The result of a server -/

section Result

variable {r : BatchSyncEntriesResult}

/-- What the flags of a batch mean: a position is true unless a state reports it as false. -/
def IsMerged (states : List BatchSyncEntries) (flags : List Bool) : Prop :=
  ∀ i, i < flags.length → (flags[i]? = some true ↔ ∀ s ∈ states, s.validEntries[i]? ≠ some false)

theorem validEntries_ok (hfits : ∀ s ∈ r.allStates, Fits r.myState.validEntries.length s.validEntries) :
    ∃ flags, r.validEntries = .ok flags ∧ flags.length = r.myState.validEntries.length ∧
      IsMerged r.allStates flags := by
  have hlists : ∀ entries ∈ r.allStates.map BatchSyncEntries.validEntries,
      Fits (List.replicate r.myState.validEntries.length true).length entries := by simpa using hfits
  obtain ⟨flags, hok, hlen, hget⟩ := merge_ok hlists
  rw [List.length_replicate] at hlen
  refine ⟨flags, hok, hlen, fun i hi => ?_⟩
  rw [hget, List.getElem?_replicate, if_pos (hlen ▸ hi)]
  simp

theorem length_validEntries {flags : List Bool} (h : r.validEntries = .ok flags) :
    flags.length = r.myState.validEntries.length := by
  rw [length_merge h, List.length_replicate]

end Result

/-! ## The accepted states -/

section Fetch

variable {config : ServerCoordinationConfig} {own : BatchSyncEntries}
  {fromNext fromPrev : List (Reply BatchSyncEntries)}

theorem fetchEntries_ok {host : String} {replies : List (Reply BatchSyncEntries)} {s : BatchSyncEntries}
    (h : fetchEntries own host replies = .ok s) : .state s ∈ replies ∧ s.batchSha = own.batchSha := by
  unfold fetchEntries at h
  split at h
  next state hpoll =>
    cases h
    obtain ⟨hmem, haccept⟩ := poll_eq_ok hpoll
    refine ⟨hmem, ?_⟩
    by_contra hne
    rw [rejectsEntries, if_pos hne] at haccept
    cases haccept
  next => cases h

/-- What the server has fetched: its own state, and an answer of each peer for the same batch. -/
theorem getBatchSyncEntries_ok {all : List BatchSyncEntries}
    (h : getBatchSyncEntries config (some own) fromNext fromPrev = .ok all) :
    ∃ next prev, all = [own, next, prev] ∧ .state next ∈ fromNext ∧ .state prev ∈ fromPrev ∧
      next.batchSha = own.batchSha ∧ prev.batchSha = own.batchSha := by
  obtain ⟨nextNode, -, h⟩ := Outcome.bind_eq_ok.mp h
  obtain ⟨prevNode, -, h⟩ := Outcome.bind_eq_ok.mp h
  obtain ⟨next, hnext, h⟩ := Outcome.bind_eq_ok.mp h
  obtain ⟨prev, hprev, h⟩ := Outcome.bind_eq_ok.mp h
  cases h
  obtain ⟨hmem, hsha⟩ := fetchEntries_ok hnext
  obtain ⟨hmem', hsha'⟩ := fetchEntries_ok hprev
  exact ⟨next, prev, rfl, hmem, hmem', hsha, hsha'⟩

end Fetch

/-! ## Three servers -/

section Servers

variable {s : Fin 3 → BatchSyncEntries} {config : Fin 3 → ServerCoordinationConfig}
  {fromNext fromPrev : Fin 3 → List (Reply BatchSyncEntries)} {all : Fin 3 → List BatchSyncEntries}

/-- No server panics, and all compute the same flags: a position is true unless a server reports it as false. -/
def MergesTogether (s : Fin 3 → BatchSyncEntries) (all : Fin 3 → List BatchSyncEntries) : Prop :=
  ∃ flags, ∀ p, (BatchSyncEntriesResult.mk (s p) (all p)).validEntries = .ok flags ∧ IsMerged (all p) flags

/-- The merge of the flags is total and symmetric for the lists of servers that agree on the length of the batch, and
for no others. -/
theorem valid_entries_correct_iff (hnext : ∀ p e, .state e ∈ fromNext p → e = s (p + 1))
    (hprev : ∀ p e, .state e ∈ fromPrev p → e = s (p + 2))
    (hget : ∀ p, getBatchSyncEntries (config p) (some (s p)) (fromNext p) (fromPrev p) = .ok (all p)) :
    MergesTogether s all ↔ ∀ p q, (s p).validEntries.length = (s q).validEntries.length := by
  have hall : ∀ p, all p = [s p, s (p + 1), s (p + 2)] := by
    intro p
    obtain ⟨next, prev, heq, hn, hp, -⟩ := getBatchSyncEntries_ok (hget p)
    rw [heq, hnext p next hn, hprev p prev hp]
  constructor
  · rintro ⟨flags, hflags⟩ p q
    exact (length_validEntries (hflags p).1).symm.trans (length_validEntries (hflags q).1)
  · intro hlen
    have hmember : ∀ p, ∀ e ∈ all p, ∃ q, e = s q := by
      intro p e he
      rw [hall p] at he
      simp only [List.mem_cons, List.not_mem_nil, or_false] at he
      rcases he with rfl | rfl | rfl
      · exact ⟨p, rfl⟩
      · exact ⟨p + 1, rfl⟩
      · exact ⟨p + 2, rfl⟩
    have hcovers : ∀ p q, s q ∈ all p := by
      intro p q
      have hq : q = p ∨ q = p + 1 ∨ q = p + 2 := by
        revert p q
        decide
      rw [hall p]
      rcases hq with rfl | rfl | rfl <;> simp
    have hfits : ∀ p, ∀ e ∈ all p, Fits (s p).validEntries.length e.validEntries := by
      intro p e he
      obtain ⟨q, rfl⟩ := hmember p e he
      exact fits_of_length_le (hlen q p).le
    choose flags hok hlength hmerged using fun p => validEntries_ok (r := ⟨s p, all p⟩) (hfits p)
    have hlength' : ∀ p, (flags p).length = (flags 0).length := fun p =>
      (hlength p).trans ((hlen p 0).trans (hlength 0).symm)
    have hsame : ∀ p, flags p = flags 0 := by
      intro p
      refine eq_of_true_iff (hlength' p) fun k => ?_
      by_cases hk : k < (flags 0).length
      · rw [hmerged p k (hlength' p ▸ hk), hmerged 0 k hk]
        constructor
        · intro h e he
          obtain ⟨q, rfl⟩ := hmember 0 e he
          exact h _ (hcovers p q)
        · intro h e he
          obtain ⟨q, rfl⟩ := hmember p e he
          exact h _ (hcovers 0 q)
      · rw [List.getElem?_eq_none (by rw [hlength' p]; omega), List.getElem?_eq_none (by omega)]
    exact ⟨flags 0, fun p => ⟨(hok p).trans (congrArg Except.ok (hsame p)), hsame p ▸ hmerged p⟩⟩

/-- A batch of one entry, and a peer with a second one. -/
def longerPeer : Fin 3 → BatchSyncEntries :=
  let sha : BatchSha := ⟨List.replicate 32 7, List.length_replicate⟩
  ![⟨[true], sha⟩, ⟨[true, false], sha⟩, ⟨[true], sha⟩]

/-- A batch of two entries, one of them invalid at one server. -/
def oneInvalid : Fin 3 → BatchSyncEntries :=
  let sha : BatchSha := ⟨List.replicate 32 7, List.length_replicate⟩
  ![⟨[true, true], sha⟩, ⟨[true, false], sha⟩, ⟨[true, true], sha⟩]

/-- The configuration of a server, and what it fetches when its peers answer at once. -/
def localConfig (p : Fin 3) : ServerCoordinationConfig :=
  ⟨p.val, ["alice", "bob", "charlie"], ["3000", "3001", "3002"], 10, 300, false⟩

def fetched (s : Fin 3 → BatchSyncEntries) (p : Fin 3) : Outcome (List BatchSyncEntries) :=
  getBatchSyncEntries (localConfig p) (some (s p)) [.state (s (p + 1))] [.state (s (p + 2))]

theorem valid_entries_correct_oneInvalid :
    MergesTogether oneInvalid fun p => [oneInvalid p, oneInvalid (p + 1), oneInvalid (p + 2)] := by
  have hget : ∀ p, fetched oneInvalid p = .ok [oneInvalid p, oneInvalid (p + 1), oneInvalid (p + 2)] := by decide
  have hnext : ∀ p e, .state e ∈ [Reply.state (oneInvalid (p + 1))] → e = oneInvalid (p + 1) := by simp
  have hprev : ∀ p e, .state e ∈ [Reply.state (oneInvalid (p + 2))] → e = oneInvalid (p + 2) := by simp
  exact (valid_entries_correct_iff hnext hprev hget).mpr (by decide)

/-- The first server accepts the longer list, and panics. -/
theorem valid_entries_longerPeer :
    fetched longerPeer 0 = .ok [longerPeer 0, longerPeer 1, longerPeer 2] ∧
      (BatchSyncEntriesResult.mk (longerPeer 0) [longerPeer 0, longerPeer 1, longerPeer 2]).validEntries =
        .panicked "index out of bounds: the len is 1 but the index is 1" := by
  decide

end Servers

end AmpcCommon.Batches
