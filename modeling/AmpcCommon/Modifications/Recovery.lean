import AmpcCommon.Modifications.Modification
import Mathlib.Data.Fin.VecNotation

/-!
# Recovery rounds

Three parties exchange the snapshots of their modification rows, each computes its plan from the
common list of snapshots, and each applies its plan or crashes before doing so. The next round starts
from the rows that are there then.
-/

namespace AmpcCommon.Modifications

variable {Id : Type} [LinearOrder Id] [Repr Id]

/-- Apply a plan to the local rows: an update replaces the row with the same id, a delete removes
it. -/
def applyPlan (plan : ModificationPlan Id) (rows : List (Modification Id)) :
    List (Modification Id) :=
  (rows.map fun r => (plan.1.find? fun u => u.id = r.id).getD r).filter
    fun r => ! plan.2.any fun d => d.id = r.id

/-- The rows of the three parties. -/
abbrev Snapshots (Id : Type) := Fin 3 → List (Modification Id)

/-- The common list of snapshots every party compares its rows with. -/
def Snapshots.all (s : Snapshots Id) : List (List (Modification Id)) := [s 0, s 1, s 2]

/-- The plan of party `i`. -/
def planOf (s : Snapshots Id) (i : Fin 3) : Outcome (ModificationPlan Id) :=
  compareModifications (s i) s.all

/-- One recovery round: every party computes its plan from the common list, and the parties that do
not crash apply theirs. -/
def recoveryRound (crashed : Fin 3 → Bool) (s : Snapshots Id) : Outcome (Snapshots Id) := do
  let p0 ← planOf s 0
  let p1 ← planOf s 1
  let p2 ← planOf s 2
  return fun i => if crashed i then s i else applyPlan (![p0, p1, p2] i) (s i)

/-- A sequence of recovery rounds, each with its own crash pattern. -/
def recoveryRun : List (Fin 3 → Bool) → Snapshots Id → Outcome (Snapshots Id)
  | [], s => .ok s
  | crashed :: rest, s => do
    let t ← recoveryRound crashed s
    recoveryRun rest t

end AmpcCommon.Modifications
