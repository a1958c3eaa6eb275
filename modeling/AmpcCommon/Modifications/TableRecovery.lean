import AmpcCommon.Base.DatabaseAlone
import AmpcCommon.Modifications.Postgres
import AmpcCommon.Modifications.Recovery

/-!
# Recovery on tables

Each party has a modifications table in a database of its own. In a round the parties read their last modifications and
exchange them; each plans with `compare_modifications` and writes its plan with `update_modifications` and
`delete_modifications` in one transaction. A party can stop anywhere in it, and every request can fail or lose its
answer. A table after a plan is stated on its rows (`recoverRows`).
-/

namespace AmpcCommon.Modifications

open Database

/-! ## A round -/

/-- The modifications that a party exchanges. It reads them on a new connection: that has no transaction, and sees all
that is committed. -/
def readModifications (count : BitVec 64) (storage : ModificationInputStorage) :
    ModificationProgram (Outcome (List (Modification Int))) := do
  let _ ← ask .rollback
  lastModifications count storage

/-- The caller of the functions begins a transaction, and rolls it back when one of them fails. -/
def inTransaction (body : ModificationProgram (Outcome Unit)) : ModificationProgram (Outcome Unit) := do
  match ← execute .begin with
  | .error e => return .error e
  | .ok () =>
    match ← body with
    | .error e =>
      let _ ← ask .rollback
      return .error e
    | .ok () => execute .commit

/-- The statements of a plan. -/
def writeStatements (plan : ModificationPlan Int) : ModificationProgram (Outcome Unit) := do
  match ← updateModifications plan.1 with
  | .error e => return .error e
  | .ok () => deleteModifications plan.2

/-- A party that has the modifications of all parties: it plans, and writes its plan. -/
def recoverModifications (snapshots : Snapshots Int) (i : Fin 3) : ModificationProgram (Outcome Unit) :=
  match planOf snapshots i with
  | .error e => return .error e
  | .ok plan => inTransaction (writeStatements plan)

section Rounds

variable {C : Type} [DecidableEq C] (server : Server C ModificationRow) (count : BitVec 64)
  (storage : ModificationInputStorage)

/-- Every party has read its last modifications. -/
def Exchanged (c : Fin 3 → C) (snapshots : Snapshots Int) (s t : Fin 3 → server.State) : Prop :=
  ∀ i, server.Runs (c i) (readModifications count storage) (.done (.ok (snapshots i))) (s i) (t i)

/-- A round: either the modifications were not exchanged, or every party goes on with its plan as far as it gets. No
commit is left open at the end. -/
inductive Round (s u : Fin 3 → server.State) : Prop where
  | interrupted (c : Fin 3 → C) :
      (∀ i, ∃ q, server.Runs (c i) (readModifications count storage) q (s i) (u i)) → Round s u
  | exchanged (c : Fin 3 → C) (snapshots : Snapshots Int) (t : Fin 3 → server.State) :
      Exchanged server count storage c snapshots s t →
      (∀ i, ∃ q, server.Runs (c i) (recoverModifications snapshots i) q (t i) (u i)) →
      (∀ i, (server.view (u i)).Settled) → Round s u

/-- A round in which every party writes its plan. -/
def FullRound (s u : Fin 3 → server.State) : Prop :=
  ∃ (c : Fin 3 → C) (snapshots : Snapshots Int) (t : Fin 3 → server.State),
    Exchanged server count storage c snapshots s t ∧
      ∀ i, server.Runs (c i) (recoverModifications snapshots i) (.done (.ok ())) (t i) (u i)

end Rounds

/-! ## Rows -/

/-- The rows of a table, in the descending order of their ids. -/
structure HasRows (m : Contents ModificationRow) (rows : List ModificationRow) : Prop where
  sorted : rows.Pairwise fun a b => b.id < a.id
  mem : ∀ k row, m k = some row ↔ row ∈ rows ∧ row.id = k

/-- The modifications of the tables. -/
def snapshotsOf (storage : ModificationInputStorage) (rows : Fin 3 → List ModificationRow) : Snapshots Int :=
  fun i => (rows i).map fun row => row.intoModification storage

/-- A row after the updates of a plan. -/
def updatedRow (modifications : List (Modification Int)) (row : ModificationRow) : ModificationRow :=
  (modifications.find? fun m => m.id = row.id).elim row row.set

/-- The rows after a plan. -/
def recoverRows (plan : ModificationPlan Int) (rows : List ModificationRow) : List ModificationRow :=
  (rows.map (updatedRow plan.1)).filter fun row => ! plan.2.any fun d => d.id = row.id

/-- What is in the table after a plan. -/
def recoverContents (plan : ModificationPlan Int) (m : Contents ModificationRow) : Contents ModificationRow :=
  fun k => ((m k).map (updatedRow plan.1)).filter fun row => ! plan.2.any fun d => d.id = row.id

end AmpcCommon.Modifications
