import AmpcCommon.Modifications.Results
import Mathlib.Data.List.Forall2

/-!
# Replay of results: what is published

The map of the replay holds for every known request type the bodies of its modifications; taking the entries out in the
order of the request types publishes each of them once. -/

namespace AmpcCommon.Modifications

variable {Id E W : Type}

/-! ## Maps as sorted entries -/

theorem lookup_cons_of_ne {x k : String} (h : x ≠ k) (vs : List String) (rest : List (String × List String)) :
    ((k, vs) :: rest).lookup x = rest.lookup x := by
  rw [List.lookup_cons, beq_eq_false_iff_ne.mpr h]

theorem lookup_eq_none_of_lt {k : String} {es : List (String × List String)} (h : ∀ x ∈ es.map Prod.fst, k < x) :
    es.lookup k = none := by
  induction es with
  | nil => rfl
  | cons e rest ih =>
    obtain ⟨k', vs⟩ := e
    rw [List.map_cons, List.forall_mem_cons] at h
    obtain ⟨hlt, hrest⟩ := h
    rw [lookup_cons_of_ne (ne_of_lt hlt)]
    exact ih hrest

theorem lookup_entryPush {k : String} {v : String} {es : List (String × List String)}
    (h : (es.map Prod.fst).Pairwise (· < ·)) (x : String) :
    (SortedGroup.entryPush k v es).lookup x =
      if x = k then some ((es.lookup k).getD [] ++ [v]) else es.lookup x := by
  induction es with
  | nil =>
    by_cases hx : x = k
    · subst hx
      rw [if_pos rfl]
      exact List.lookup_cons_self
    · rw [if_neg hx]
      exact lookup_cons_of_ne hx [v] []
  | cons e rest ih =>
    obtain ⟨k', vs⟩ := e
    rw [List.map_cons, List.pairwise_cons] at h
    obtain ⟨hfirst, hrest⟩ := h
    unfold SortedGroup.entryPush
    by_cases hlt : k < k'
    · have hnone : ((k', vs) :: rest).lookup k = none := by
        refine lookup_eq_none_of_lt fun y hy => ?_
        rcases List.mem_cons.mp hy with rfl | hy
        · exact hlt
        · exact lt_trans hlt (hfirst y hy)
      rw [if_pos hlt, hnone]
      by_cases hx : x = k
      · rw [if_pos hx, hx, List.lookup_cons_self]
        rfl
      · rw [if_neg hx, lookup_cons_of_ne hx]
    · rw [if_neg hlt]
      by_cases heq : k = k'
      · subst heq
        rw [if_pos rfl]
        by_cases hx : x = k
        · rw [if_pos hx, hx, List.lookup_cons_self, List.lookup_cons_self]
          rfl
        · rw [if_neg hx, lookup_cons_of_ne hx, lookup_cons_of_ne hx]
      · rw [if_neg heq, lookup_cons_of_ne heq]
        by_cases hx : x = k'
        · subst hx
          rw [if_neg (Ne.symm heq), List.lookup_cons_self, List.lookup_cons_self]
        · rw [lookup_cons_of_ne hx, lookup_cons_of_ne hx]
          exact ih hrest

theorem lookup_filter_ne {k : String} (es : List (String × List String)) (x : String) :
    (es.filter fun entry => entry.1 != k).lookup x = if x = k then none else es.lookup x := by
  induction es with
  | nil => exact (ite_self none).symm
  | cons e rest ih =>
    obtain ⟨k', vs⟩ := e
    by_cases hk : k' = k
    · subst hk
      rw [List.filter_cons_of_neg (by simp), ih]
      by_cases hx : x = k'
      · rw [if_pos hx, if_pos hx]
      · rw [if_neg hx, if_neg hx, lookup_cons_of_ne hx]
    · rw [List.filter_cons_of_pos (by simpa using hk)]
      by_cases hx : x = k'
      · subst hx
        rw [if_neg hk, List.lookup_cons_self, List.lookup_cons_self]
      · rw [lookup_cons_of_ne hx, lookup_cons_of_ne hx, ih]

/-! ## The grouped results -/

theorem resultBodies_concat (modifications : List (Modification Id)) (m : Modification Id) (requestType : String) :
    resultBodies (modifications ++ [m]) requestType = resultBodies modifications requestType ++
      if m.requestType = requestType then m.resultMessageBody.toList else [] := by
  unfold resultBodies
  rw [List.filter_append, List.filterMap_append]
  by_cases h : m.requestType = requestType
  · rw [if_pos h, List.filter_cons_of_pos (by simpa using h), List.filterMap_cons]
    cases m.resultMessageBody <;> rfl
  · rw [if_neg h, List.filter_cons_of_neg (by simpa using h)]
    rfl

/-- The entry of a request type. -/
def resultEntry (order : List String) (modifications : List (Modification Id)) (requestType : String) :
    Option (List String) :=
  if requestType ∈ order ∧ resultBodies modifications requestType ≠ [] then
    some (resultBodies modifications requestType)
  else none

theorem groupResult_none {order : List String} {grouped : List (String × List String)} {m : Modification Id}
    (h : m.resultMessageBody = none) : groupResult order grouped m = grouped := by
  unfold groupResult
  rw [h]

theorem groupResult_some {order : List String} {grouped : List (String × List String)} {m : Modification Id}
    {body : String} (h : m.resultMessageBody = some body) : groupResult order grouped m =
      if m.requestType ∈ order then SortedGroup.entryPush m.requestType body grouped else grouped := by
  unfold groupResult
  rw [h]
  by_cases hknown : m.requestType ∈ order
  · rw [if_pos hknown]
    exact if_pos (List.contains_iff_mem.mpr hknown)
  · rw [if_neg hknown]
    exact if_neg fun h => hknown (List.contains_iff_mem.mp h)

theorem groupResults_concat (order : List String) (modifications : List (Modification Id)) (m : Modification Id) :
    groupResults order (modifications ++ [m]) = groupResult order (groupResults order modifications) m := by
  unfold groupResults
  rw [List.foldl_append]
  rfl

theorem groupResults_spec (order : List String) (modifications : List (Modification Id)) :
    ((groupResults order modifications).map Prod.fst).Pairwise (· < ·) ∧
      ∀ x, (groupResults order modifications).lookup x = resultEntry order modifications x := by
  induction modifications using List.reverseRecOn with
  | nil =>
    refine ⟨List.Pairwise.nil, fun x => ?_⟩
    exact (if_neg fun h => h.2 rfl).symm
  | append_singleton modifications m ih =>
    obtain ⟨hsorted, hlookup⟩ := ih
    have hother : ∀ x, m.resultMessageBody = none ∨ m.requestType ≠ x →
        resultEntry order (modifications ++ [m]) x = resultEntry order modifications x := by
      intro x hx
      have hbodies : resultBodies (modifications ++ [m]) x = resultBodies modifications x := by
        rw [resultBodies_concat]
        rcases hx with hx | hx
        · rw [hx]
          by_cases h : m.requestType = x
          · rw [if_pos h]
            exact List.append_nil _
          · rw [if_neg h, List.append_nil]
        · rw [if_neg hx, List.append_nil]
      unfold resultEntry
      rw [hbodies]
    rw [groupResults_concat]
    cases hbody : m.resultMessageBody with
    | none =>
      rw [groupResult_none hbody]
      exact ⟨hsorted, fun x => (hlookup x).trans (hother x (Or.inl hbody)).symm⟩
    | some body =>
      rw [groupResult_some hbody]
      by_cases hknown : m.requestType ∈ order
      · rw [if_pos hknown]
        refine ⟨SortedGroup.sorted_entryPush _ _ hsorted, fun x => ?_⟩
        rw [lookup_entryPush hsorted, hlookup, hlookup]
        by_cases hx : x = m.requestType
        · have hbodies : resultBodies (modifications ++ [m]) m.requestType =
              resultBodies modifications m.requestType ++ [body] := by
            rw [resultBodies_concat, if_pos rfl, hbody]
            rfl
          have hentry : (resultEntry order modifications m.requestType).getD [] =
              resultBodies modifications m.requestType := by
            unfold resultEntry
            by_cases hempty : resultBodies modifications m.requestType = []
            · rw [if_neg fun h => h.2 hempty, hempty]
              rfl
            · rw [if_pos ⟨hknown, hempty⟩]
              rfl
          rw [if_pos hx, hx, hentry]
          unfold resultEntry
          rw [hbodies, if_pos ⟨hknown, List.append_ne_nil_of_right_ne_nil _ (List.cons_ne_nil _ _)⟩]
        · rw [if_neg hx]
          exact (hother x (Or.inr (Ne.symm hx))).symm
      · rw [if_neg hknown]
        refine ⟨hsorted, fun x => ?_⟩
        rw [hlookup]
        by_cases hx : m.requestType = x
        · subst hx
          have hunknown : ∀ ms : List (Modification Id), resultEntry order ms m.requestType = none :=
            fun ms => if_neg fun h => hknown h.1
          rw [hunknown, hunknown]
        · exact (hother x (Or.inr hx)).symm

/-! ## The loop -/

theorem eraseDups_filter (l : List String) (p : String → Bool) : (l.filter p).eraseDups = l.eraseDups.filter p := by
  induction hn : l.length using Nat.strongRecOn generalizing l with
  | _ n ih =>
    cases l with
    | nil => rfl
    | cons a l =>
      subst hn
      have hlt : (l.filter fun b => !b == a).length < (a :: l).length :=
        Nat.lt_succ_of_le (List.length_filter_le _ _)
      have hrest := ih _ hlt (l.filter fun b => !b == a) rfl
      rw [List.eraseDups_cons]
      by_cases ha : p a = true
      · rw [List.filter_cons_of_pos ha, List.filter_cons_of_pos ha, List.eraseDups_cons, ← hrest, List.filter_filter,
          List.filter_filter]
        simp only [Bool.and_comm]
      · rw [List.filter_cons_of_neg ha, List.filter_cons_of_neg ha, ← hrest, List.filter_filter]
        congr 1
        refine List.filter_congr fun x _ => ?_
        by_cases hx : x = a
        · subst hx
          simp [ha]
        · simp [hx]

/-- The entries that are left, in the order of the request types. -/
def entriesInOrder (order : List String) (es : List (String × List String)) : List (String × List String) :=
  order.eraseDups.filterMap fun requestType => (es.lookup requestType).map fun bodies => (requestType, bodies)

/-- A request type without an entry plays no role. -/
theorem entriesInOrder_filter {requestType : String} {es es' : List (String × List String)} (rest : List String)
    (hnone : es'.lookup requestType = none) (hsame : ∀ x, x ≠ requestType → es'.lookup x = es.lookup x) :
    entriesInOrder (rest.filter fun b => !b == requestType) es = entriesInOrder rest es' := by
  unfold entriesInOrder
  rw [eraseDups_filter, List.filterMap_filter]
  congr 1
  funext x
  by_cases hx : x = requestType
  · subst hx
    rw [hnone]
    simp
  · rw [hsame x hx]
    simp [hx]

theorem publishLoop_eq (publish : String → List String → W → Except E Unit × W) (order : List String)
    (es : List (String × List String)) (w : W) :
    publishLoop publish order es w = publishAll publish (entriesInOrder order es) w := by
  induction order generalizing es w with
  | nil => rfl
  | cons requestType rest ih =>
    have hentries : entriesInOrder (requestType :: rest) es =
        ((es.lookup requestType).map fun bodies => (requestType, bodies)).toList ++
          entriesInOrder (rest.filter fun b => !b == requestType) es := by
      unfold entriesInOrder
      rw [List.eraseDups_cons, List.filterMap_cons]
      cases es.lookup requestType <;> rfl
    unfold publishLoop
    rw [hentries]
    cases hlookup : es.lookup requestType with
    | none =>
      rw [entriesInOrder_filter rest hlookup fun _ _ => rfl]
      exact ih es w
    | some bodies =>
      have hnone := lookup_filter_ne es (k := requestType) requestType
      rw [if_pos rfl] at hnone
      rw [entriesInOrder_filter rest hnone fun x hx => (lookup_filter_ne es x).trans (if_neg hx)]
      show _ = publishAll publish ((requestType, bodies) :: _) w
      unfold publishAll
      simp only
      cases hpublish : publish requestType bodies w with
      | mk result w' =>
        cases result with
        | error err => rfl
        | ok _ => exact ih _ w'

theorem entriesInOrder_groupResults (order : List String) (modifications : List (Modification Id)) :
    entriesInOrder order (groupResults order modifications) = resultCalls modifications order := by
  refine List.filterMap_congr fun x hx => ?_
  have hknown : x ∈ order := List.mem_eraseDups.mp hx
  rw [(groupResults_spec order modifications).2 x]
  unfold resultEntry
  by_cases hempty : resultBodies modifications x = []
  · rw [if_neg fun h => h.2 hempty, hempty]
    rfl
  · rw [if_pos ⟨hknown, hempty⟩, if_neg (by simpa using hempty)]
    rfl

/-! ## The parties -/

/-- Two parties' rows of one modification: the result bodies may differ, but are there in both or in neither. -/
def SameRow (m m' : Modification Id) : Prop :=
  m.eq m' ∧ m.resultMessageBody.isSome = m'.resultMessageBody.isSome

theorem length_resultBodies {ms ms' : List (Modification Id)} (h : List.Forall₂ SameRow ms ms')
    (requestType : String) : (resultBodies ms requestType).length = (resultBodies ms' requestType).length := by
  induction h with
  | nil => rfl
  | @cons m m' ms ms' hrow _ ih =>
    obtain ⟨⟨-, -, htype, -⟩, hbody⟩ := hrow
    unfold resultBodies at ih ⊢
    by_cases heq : m.requestType = requestType
    · rw [List.filter_cons_of_pos (by simpa using heq), List.filter_cons_of_pos (by simpa using htype ▸ heq),
        List.filterMap_cons, List.filterMap_cons]
      cases hb : m.resultMessageBody with
      | none =>
        cases hb' : m'.resultMessageBody with
        | none => exact ih
        | some body' => simp [hb, hb'] at hbody
      | some body =>
        cases hb' : m'.resultMessageBody with
        | none => simp [hb, hb'] at hbody
        | some body' => exact congrArg (· + 1) ih
    · rw [List.filter_cons_of_neg (by simpa using heq), List.filter_cons_of_neg (by simpa using htype ▸ heq)]
      exact ih

/-- **Results are replayed in order.** Whatever the publishing does and whenever it fails, a replay is the calls of
`resultCalls` one after the other, up to the first that fails: every result body of a known request type once and in
order, under its request type, and nothing else. Parties whose rows differ in the result bodies only make calls for the
same request types, with the same numbers of bodies. -/
theorem results_replayed_in_order (modifications : List (Modification Id)) (order : List String)
    (publish : String → List String → W → Except E Unit × W) (w : W) :
    replayModificationResults modifications order publish w = publishAll publish (resultCalls modifications order) w ∧
    ∀ others, List.Forall₂ SameRow modifications others →
      (resultCalls modifications order).map (fun call => (call.1, call.2.length)) =
        (resultCalls others order).map fun call => (call.1, call.2.length) := by
  refine ⟨?_, fun others h => ?_⟩
  · unfold replayModificationResults
    rw [publishLoop_eq, entriesInOrder_groupResults]
  · unfold resultCalls
    rw [List.map_filterMap, List.map_filterMap]
    refine List.filterMap_congr fun x _ => ?_
    have hlength := length_resultBodies h x
    have hempty : (resultBodies modifications x).isEmpty = (resultBodies others x).isEmpty := by
      rw [Bool.eq_iff_iff, List.isEmpty_iff, List.isEmpty_iff, ← List.length_eq_zero_iff, ← List.length_eq_zero_iff,
        hlength]
    rw [hempty]
    by_cases h0 : (resultBodies others x).isEmpty = true
    · rw [if_pos h0, if_pos h0]
    · rw [if_neg h0, if_neg h0]
      show some (x, (resultBodies modifications x).length) = some (x, (resultBodies others x).length)
      rw [hlength]

def reauthResult (nodeId : Nat) : Modification Nat :=
  ⟨1, some 7, "reauth", some (.s3 "input/1"), modStatusCompleted, true, some s!"node {nodeId}"⟩

theorem results_replayed_in_order_twoParties :
    (replayModificationResults [reauthResult 0] ["uniqueness", "reauth", "reauth"]
      (fun requestType bodies log => ((.ok () : Except String Unit), log ++ [(requestType, bodies)])) []).2 =
        [("reauth", ["node 0"])] ∧
    (resultCalls [reauthResult 0] ["uniqueness", "reauth", "reauth"]).map (fun call => (call.1, call.2.length)) =
      (resultCalls [reauthResult 1] ["uniqueness", "reauth", "reauth"]).map fun call => (call.1, call.2.length) := by
  obtain ⟨hreplay, hparties⟩ := results_replayed_in_order [reauthResult 0] ["uniqueness", "reauth", "reauth"]
    (fun requestType bodies log => ((.ok () : Except String Unit), log ++ [(requestType, bodies)])) []
  refine ⟨?_, hparties [reauthResult 1] (List.Forall₂.cons ⟨⟨rfl, rfl, rfl, rfl, rfl, rfl⟩, rfl⟩ List.Forall₂.nil)⟩
  rw [hreplay]
  rfl

end AmpcCommon.Modifications
