import AmpcCommon.Modifications.Modification
import AmpcCommon.Base.Transition
import Mathlib.Logic.Function.Basic
import Mathlib.Data.Int.Order.Basic
import Mathlib.Algebra.Group.Int.Defs

/-!
# Recovery with mutations

The model of `recovery_plan` of `ampc-server-utils/src/modifications.rs`: a plan that also says for which updates
the mutation itself has to be applied. A party works its plan off one update at a time; each update writes the row
and, where the plan says so, applies the mutation, in one step. It can crash between any two steps, and starts
over with the rows it has then.
-/

namespace AmpcCommon.Modifications

/-- The text of `{:?}` of an optional id. -/
def debugId : Option Int → String
  | none => "None"
  | some id => s!"Some({id})"

/-- `ensure_modification_lookback` -/
def ensureModificationLookback (all : List (List (Modification Int))) (maxLookback : Nat) : Outcome Unit :=
  let completedMaxModIds := all.map fun state =>
    ((state.filter fun m => m.status = modStatusCompleted).map (·.id)).max?
  let minId := (completedMaxModIds.filterMap id).min?
  let maxId := (completedMaxModIds.filterMap id).max?
  match minId, maxId with
  | some minId, some maxId =>
    -- the subtraction saturates at `i64::MAX`
    if (min (maxId - minId) (2 ^ 63 - 1)).toNat ≤ maxLookback then .ok ()
    else
      let ids := ", ".intercalate (completedMaxModIds.map debugId)
      .bail (s!"Modification ID difference across nodes is too large: [{ids}]. Min: {minId}, Max: {maxId}. " ++
        "Can not safely handle this case, consider bumping lookback. Crashing!")
  | _, _ => .ok ()

/-- `requires_modification_apply` -/
def requiresModificationApply {Id : Type} (modification : Modification Id) (loc : Option (Modification Id)) : Bool :=
  modification.persisted && ! loc.any fun m => m.status = modStatusCompleted && m.persisted

/-- `RollForwardModification` -/
structure RollForwardModification where
  modification : Modification Int
  applyMutation : Bool
  deriving DecidableEq

/-- `ModificationRecoveryPlan` -/
structure ModificationRecoveryPlan where
  updates : List RollForwardModification
  deletes : List (Modification Int)
  deriving DecidableEq

/-- `recovery_plan` -/
def recoveryPlan (loc : List (Modification Int)) (all : List (List (Modification Int))) (maxLookback : Nat) :
    Outcome ModificationRecoveryPlan := do
  ensureModificationLookback all maxLookback
  let (updates, deletes) ← compareModifications loc all
  return {
    updates := updates.map fun modification =>
      { modification, applyMutation :=
        requiresModificationApply modification (loc.find? fun m => m.id = modification.id) }
    deletes }

/-- A party: its rows, the ids of the mutations it has applied so far, and what is left of the plan it works
off. -/
structure RecoveringParty where
  rows : List (Modification Int)
  applied : List Int
  pending : Option ModificationRecoveryPlan
  deriving DecidableEq

/-- What happens to a party. -/
inductive RecoveryEvent where
  /-- A round begins: the party computes its plan from snapshots that contain its rows. -/
  | plan (all : List (List (Modification Int))) (maxLookback : Nat)
  | update
  | delete
  | finish
  | crash

/-- Write the row of an update and, if the plan says so, apply the mutation. -/
def RecoveringParty.rollForward (s : RecoveringParty) (u : RollForwardModification) : RecoveringParty :=
  { s with
    rows := s.rows.map fun r => if r.id = u.modification.id then u.modification else r
    applied := if u.applyMutation then u.modification.id :: s.applied else s.applied }

/-- One step of a party. -/
def RecoveringParty.step (s : RecoveringParty) : RecoveryEvent → Option RecoveringParty
  | .plan all maxLookback =>
    if s.pending = none ∧ s.rows ∈ all then
      match recoveryPlan s.rows all maxLookback with
      | .ok plan => some { s with pending := some plan }
      | .error _ => none
    else none
  | .update =>
    match s.pending with
    | some ⟨u :: updates, deletes⟩ => some { s.rollForward u with pending := some ⟨updates, deletes⟩ }
    | _ => none
  | .delete =>
    match s.pending with
    | some ⟨updates, d :: deletes⟩ =>
      some { s with rows := s.rows.filter (fun r => r.id ≠ d.id), pending := some ⟨updates, deletes⟩ }
    | _ => none
  | .finish =>
    match s.pending with
    | some ⟨[], []⟩ => some { s with pending := none }
    | _ => none
  | .crash => some { s with pending := none }

/-- A step of one of the parties `P`. -/
def recoveryStep {P : Type} [DecidableEq P] (s : P → RecoveringParty) (e : P × RecoveryEvent) :
    Option (P → RecoveringParty) :=
  ((s e.1).step e.2).map fun t => Function.update s e.1 t

end AmpcCommon.Modifications
