import AmpcCommon.Base.Counts
import AmpcCommon.Base.Outcome
import AmpcCommon.Base.SortedGroup

/-!
# Modification rows and recovery plans

The model of `ampc-server-utils/src/modifications.rs`: the rows of the modifications table, the
consistency check of the copies of one modification, and the plan that brings the local rows in line
with the snapshots of all parties.

A status is kept as the string the database holds, since `check_modifications_consistency` is what
rejects every other string.
-/

namespace AmpcCommon.Modifications

/-- `MOD_STATUS_IN_PROGRESS` -/
def modStatusInProgress : String := "IN_PROGRESS"

/-- `MOD_STATUS_COMPLETED` -/
def modStatusCompleted : String := "COMPLETED"

/-- Where the input of a modification is stored. -/
inductive ModificationInputReference where
  | s3 (reference : String)
  | inline (reference : String)
  deriving Repr, DecidableEq

/-- One row of the modifications table. -/
structure Modification (Id : Type) where
  id : Id
  serialId : Option Int
  requestType : String
  input : Option ModificationInputReference
  status : String
  persisted : Bool
  resultMessageBody : Option String
  deriving Repr, DecidableEq

/-- `eq` of `PartialEq`: the result message body is ignored, since it differs across nodes. -/
def Modification.eq {Id : Type} (self other : Modification Id) : Prop :=
  self.id = other.id ∧ self.serialId = other.serialId ∧ self.requestType = other.requestType ∧
    self.input = other.input ∧ self.status = other.status ∧ self.persisted = other.persisted

/-- Ordered modifications to update and to delete, respectively. -/
abbrev ModificationPlan (Id : Type) := List (Modification Id) × List (Modification Id)

section Compare

variable {Id : Type} [LinearOrder Id] [Repr Id]

/-- The loop of `check_modifications_consistency`: `first` is the first row of the group, `serialId`
the serial id known so far. -/
def checkConsistencyLoop (first : Modification Id) :
    Option Int → List (Modification Id) → Outcome Unit
  | _, [] => .ok ()
  | serialId, m :: ms =>
    if first.id ≠ m.id then
      .bail "Inconsistent modification IDs"
    else if first.requestType ≠ m.requestType then
      .bail ("Inconsistent request types for ID " ++ reprStr first.id)
    else if first.input ≠ m.input then
      .bail ("Inconsistent input references for ID " ++ reprStr first.id)
    else if ¬ (m.status = modStatusInProgress ∨ m.status = modStatusCompleted) then
      .bail ("Unexpected modification state for ID " ++ reprStr first.id)
    else match m.serialId with
      | none => checkConsistencyLoop first serialId ms
      | some current =>
        if serialId.all (· = current) then
          checkConsistencyLoop first (some current) ms
        else
          .bail ("Inconsistent serial IDs for ID " ++ reprStr first.id)

/-- `check_modifications_consistency` -/
def checkModificationsConsistency : List (Modification Id) → Outcome Unit
  | [] => .panicked "Empty modifications"
  | first :: rest => checkConsistencyLoop first none (first :: rest)

/-- What the plan does with one group. -/
inductive Action (Id : Type) where
  | skip
  | update (m : Modification Id)
  | delete (m : Modification Id)
  deriving Repr, DecidableEq

/-- One iteration of the loop of `compare_modifications`: the group of the rows with id `id` of all
parties, and the local rows `my`. -/
def planGroup (my : List (Modification Id)) (id : Id) (groupMods : List (Modification Id)) :
    Outcome (Action Id) := do
  checkModificationsConsistency groupMods
  let localCopy := my.find? (fun m => m.id = id)
  let anyCompleted := groupMods.any (fun m => m.status = modStatusCompleted)
  let allInProgress := groupMods.all (fun m => m.status = modStatusInProgress)
  let anyPersisted := groupMods.any (fun m => m.persisted)
  if allInProgress then
    -- nobody completed it: drop the local copy, if there is one
    return (localCopy.elim .skip .delete)
  else if anyCompleted then
    let serialId := groupMods.findSome? (fun m => m.serialId)
    let completed := groupMods.filter (fun m => m.status = modStatusCompleted)
    match (completed.find? (fun m => m.serialId = serialId)).or completed.head? with
    | none => .panicked "At least one completed modification"
    | some firstCompleted =>
      match localCopy with
      | none => return .skip
      | some localM =>
        if localM.status ≠ modStatusCompleted ∨ localM.persisted ≠ anyPersisted ∨
            localM.serialId ≠ serialId then
          return .update { firstCompleted with
            status := modStatusCompleted, persisted := anyPersisted, serialId := serialId }
        else
          return .skip
  else
    .bail ("Unexpected modification state for ID " ++ reprStr id)

/-- Add the action of one group to the plan built so far. -/
def Action.addTo : Action Id → ModificationPlan Id → ModificationPlan Id
  | .skip, p => p
  | .update m, (u, d) => (u ++ [m], d)
  | .delete m, (u, d) => (u, d ++ [m])

/-- The loop of `compare_modifications` over the groups, with the plan built so far. -/
def planGroups (my : List (Modification Id)) :
    List (Id × List (Modification Id)) → ModificationPlan Id → Outcome (ModificationPlan Id)
  | [], plan => .ok plan
  | (id, groupMods) :: rest, plan => do
    let action ← planGroup my id groupMods
    planGroups my rest (action.addTo plan)

/-- `compare_modifications`: the local rows `my` against the snapshots `all` of the parties. -/
def compareModifications (my : List (Modification Id)) (all : List (List (Modification Id))) :
    Outcome (ModificationPlan Id) :=
  planGroups my (SortedGroup.groupBy (·.id) all.flatten) ([], [])

end Compare

end AmpcCommon.Modifications
