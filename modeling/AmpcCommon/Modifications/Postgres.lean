import AmpcCommon.Base.Bytes
import AmpcCommon.Base.DatabaseCalls
import AmpcCommon.Modifications.Modification

/-!
# The modifications table

The model of `ampc-server-utils/src/modifications/postgres.rs`. The table keeps, beside a modification, the private
input of a request; only its public reference goes into the snapshots that the parties exchange. Every function is a
program of one request at most to the database, which is a parameter; its callers own the transactions around it. -/

namespace AmpcCommon.Modifications

open Database

/-- `ModificationInput`: only the reference belongs in snapshots. -/
inductive ModificationInput where
  | s3 (reference : String)
  | inline (reference : String) (bytes : Bytes)
  deriving Repr, DecidableEq

/-- `ModificationInputStorage` -/
inductive ModificationInputStorage where
  | s3
  | inline
  deriving Repr, DecidableEq

/-- The text of `{:?}`. -/
def ModificationInputStorage.debug : ModificationInputStorage → String
  | .s3 => "S3"
  | .inline => "Inline"

/-- The reference to an input. -/
def ModificationInput.toReference : ModificationInput → ModificationInputReference
  | .s3 reference => .s3 reference
  | .inline reference _ => .inline reference

/-- `StoredModification` -/
structure StoredModification where
  id : Int
  serialId : Option Int
  requestType : String
  inputReference : Option String
  status : String
  persisted : Bool
  resultMessageBody : Option String
  deriving Repr, DecidableEq

/-- `into_modification` -/
def StoredModification.intoModification (self : StoredModification) (storage : ModificationInputStorage) :
    Modification Int where
  id := self.id
  serialId := self.serialId
  requestType := self.requestType
  input := self.inputReference.map fun reference =>
    match storage with
    | .s3 => .s3 reference
    | .inline => .inline reference
  status := self.status
  persisted := self.persisted
  resultMessageBody := self.resultMessageBody

/-- A row. The reference is in the column `s3_url` or `input_reference`, by the storage of the deployment. -/
structure ModificationRow extends StoredModification where
  request : Option Bytes
  deriving Repr, DecidableEq

/-! ## Statements -/

/-- What a row is inserted with. -/
structure NewModification where
  serialId : Option Int
  requestType : String
  input : Option ModificationInput
  deriving Repr, DecidableEq

/-- The row under an id: the columns that are bound, and the request of an inline input. -/
def NewModification.toRow (new : NewModification) (id : Int) : ModificationRow where
  id := id
  serialId := new.serialId
  requestType := new.requestType
  inputReference :=
    match new.input with
    | some (.s3 reference) => some reference
    | some (.inline reference _) => some reference
    | none => none
  status := modStatusInProgress
  persisted := false
  resultMessageBody := none
  request :=
    match new.input with
    | some (.inline _ bytes) => some bytes
    | _ => none

/-- The row with the columns that an update sets. -/
def ModificationRow.set (row : ModificationRow) (m : Modification Int) : ModificationRow :=
  { row with
    status := m.status
    persisted := m.persisted
    resultMessageBody := m.resultMessageBody
    serialId := m.serialId }

/-- The requests on the table. -/
inductive ModificationQuery where
  | begin
  | insert (new : NewModification) (parameters : Nat)
  | last (count : BitVec 64)
  | load (id : Int) (reference : String)
  | update (modifications : List (Modification Int))
  | delete (ids : List Int)
  | clear
  | commit
  | rollback

/-- A row is updated by any of the modifications with its id. -/
def ModificationQuery.request : ModificationQuery → Request ModificationRow
  | begin => .begin
  | insert new parameters => .execute (.insert [new.toRow]) parameters
  | last count => .execute (.select (fun _ => true) (fun row => -row.id) (some count.toInt)) 1
  | load id reference =>
    .execute (.select (fun row => row.id = id && row.inputReference = some reference) (fun row => row.id) none) 2
  | update modifications =>
    .execute (.update fun row => (modifications.filter fun m => m.id = row.id).map row.set) 5
  | delete ids => .execute (.delete fun row => row.id ∈ ids) 1
  | clear => .execute (.delete fun _ => true) 0
  | commit => .commit
  | rollback => .rollback

/-- A program on the table. -/
abbrev ModificationProgram (α : Type) := Program ModificationRow α

def ask (query : ModificationQuery) : ModificationProgram (Answer ModificationRow) := request query.request

/-! ## Functions -/

/-- The modification of the row that an insert returns. -/
def insertResult (storage : ModificationInputStorage) (answer : Answer ModificationRow) : Outcome (Modification Int) :=
  match answer.one with
  | .error e => .bail e
  | .ok inserted => .ok (inserted.intoModification storage)

/-- `insert_modification` -/
def insertModification (serialId : Option Int) (requestType : String) (input : Option ModificationInput)
    (storage : ModificationInputStorage) : ModificationProgram (Outcome (Modification Int)) :=
  let insert (parameters : Nat) : ModificationProgram (Outcome (Modification Int)) := do
    return insertResult storage (← ask (.insert ⟨serialId, requestType, input⟩ parameters))
  match storage, input with
  | .inline, some (.inline _ _) => insert 5
  | .s3, some (.s3 _) => insert 4
  | .s3, none => insert 4
  | .inline, none => return .bail "Inline modification storage requires an input"
  | _, _ => return .bail s!"Modification input source does not match {storage.debug} storage"

/-- The modifications of the rows that a query returns. -/
def lastResult (storage : ModificationInputStorage) (answer : Answer ModificationRow) :
    Outcome (List (Modification Int)) :=
  match answer.all with
  | .error e => .bail e
  | .ok rows => .ok (rows.map fun row => row.intoModification storage)

/-- `last_modifications`: `ORDER BY id DESC`, with the count bound as an `i64`. -/
def lastModifications (count : BitVec 64) (storage : ModificationInputStorage) :
    ModificationProgram (Outcome (List (Modification Int))) := do
  return lastResult storage (← ask (.last count))

/-- The input in the row that a query returns. -/
def loadResult (id : Int) (reference : String) (answer : Answer ModificationRow) : Outcome ModificationInput :=
  match answer.one with
  | .error _ => .bail s!"Loading local input for modification {id}"
  | .ok row =>
    match row.request with
    | none => .bail s!"Missing local input for modification {id}"
    | some bytes => .ok (.inline reference bytes)

/-- `load_modification_input` -/
def loadModificationInput (modification : Modification Int) (storage : ModificationInputStorage) :
    ModificationProgram (Outcome ModificationInput) :=
  match storage, modification.input with
  | .s3, some (.s3 reference) => return .ok (.s3 reference)
  | .inline, some (.inline reference) => do
    return loadResult modification.id reference (← ask (.load modification.id reference))
  | _, none => return .bail s!"Missing input reference for modification {modification.id}"
  | _, _ =>
    return .bail s!"Modification {modification.id} input source does not match {storage.debug} storage"

/-- What a statement returns whose rows are not read. -/
def executeResult (answer : Answer ModificationRow) : Outcome Unit :=
  match answer with
  | .error e => .bail e
  | .ok _ => .ok ()

def execute (query : ModificationQuery) : ModificationProgram (Outcome Unit) := do
  return executeResult (← ask query)

/-- `update_modifications` -/
def updateModifications (modifications : List (Modification Int)) : ModificationProgram (Outcome Unit) :=
  if modifications.isEmpty then return .ok ()
  else execute (.update modifications)

/-- `delete_modifications` -/
def deleteModifications (modifications : List (Modification Int)) : ModificationProgram (Outcome Unit) :=
  if modifications.isEmpty then return .ok ()
  else execute (.delete (modifications.map fun m => m.id))

/-- `clear_modifications_table` -/
def clearModificationsTable : ModificationProgram (Outcome Unit) := execute .clear

/-! ## Clients -/

/-- What a client does: it calls a function, or begins or ends a transaction around its calls. -/
inductive ModificationCall where
  | begin
  | insert (new : NewModification)
  | last (count : BitVec 64)
  | load (modification : Modification Int)
  | update (modifications : List (Modification Int))
  | delete (modifications : List (Modification Int))
  | clear
  | commit
  | rollback

/-- What a call returns. -/
inductive ModificationResult where
  | done (result : Outcome Unit)
  | inserted (result : Outcome (Modification Int))
  | modifications (result : Outcome (List (Modification Int)))
  | input (result : Outcome ModificationInput)
  deriving Repr

def ModificationCall.run (storage : ModificationInputStorage) :
    ModificationCall → ModificationProgram ModificationResult
  | begin => do return .done (← execute .begin)
  | insert new => do return .inserted (← insertModification new.serialId new.requestType new.input storage)
  | last count => do return .modifications (← lastModifications count storage)
  | load modification => do return .input (← loadModificationInput modification storage)
  | update modifications => do return .done (← updateModifications modifications)
  | delete modifications => do return .done (← deleteModifications modifications)
  | clear => do return .done (← clearModificationsTable)
  | commit => do return .done (← execute .commit)
  | rollback => do return .done (← execute .rollback)

end AmpcCommon.Modifications
