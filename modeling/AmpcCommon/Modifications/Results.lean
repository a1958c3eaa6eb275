import AmpcCommon.Modifications.Modification
import Mathlib.Data.String.Basic

/-!
# Replay of results

The model of `replay_modification_results` of `ampc-server-utils/src/modifications.rs`. The function that publishes the
result bodies of one request type is the application's, with a state of its own. -/

namespace AmpcCommon.Modifications

variable {Id E W : Type}

/-- The first loop, for one modification: one without a result body, or of an unknown type, is only logged. -/
def groupResult (requestTypeOrder : List String) (grouped : List (String × List String))
    (modification : Modification Id) : List (String × List String) :=
  match modification.resultMessageBody with
  | none => grouped
  | some body =>
    if requestTypeOrder.contains modification.requestType then
      SortedGroup.entryPush modification.requestType body grouped
    else grouped

/-- The map of the result bodies, by request type. -/
def groupResults (requestTypeOrder : List String) (modifications : List (Modification Id)) :
    List (String × List String) :=
  modifications.foldl (groupResult requestTypeOrder) []

/-- The second loop. An entry that is published is removed. -/
def publishLoop (publish : String → List String → W → Except E Unit × W) :
    List String → List (String × List String) → W → Except E Unit × W
  | [], _, w => (.ok (), w)
  | requestType :: rest, grouped, w =>
    match grouped.lookup requestType with
    | none => publishLoop publish rest grouped w
    | some bodies =>
      match publish requestType bodies w with
      | (.ok (), w') => publishLoop publish rest (grouped.filter fun entry => entry.1 != requestType) w'
      | (.error err, w') => (.error err, w')

/-- `replay_modification_results` -/
def replayModificationResults (modifications : List (Modification Id)) (requestTypeOrder : List String)
    (publish : String → List String → W → Except E Unit × W) (w : W) : Except E Unit × W :=
  publishLoop publish requestTypeOrder (groupResults requestTypeOrder modifications) w

/-! ## What a replay is for -/

/-- The result bodies of one request type, in the order of the modifications. -/
def resultBodies (modifications : List (Modification Id)) (requestType : String) : List String :=
  (modifications.filter fun m => m.requestType == requestType).filterMap fun m => m.resultMessageBody

/-- The result bodies to publish: those of each request type once, in the order of the request types. -/
def resultCalls (modifications : List (Modification Id)) (requestTypeOrder : List String) :
    List (String × List String) :=
  requestTypeOrder.eraseDups.filterMap fun requestType =>
    if (resultBodies modifications requestType).isEmpty then none
    else some (requestType, resultBodies modifications requestType)

/-- One call after the other, up to the first that fails. -/
def publishAll (publish : String → List String → W → Except E Unit × W) :
    List (String × List String) → W → Except E Unit × W
  | [], w => (.ok (), w)
  | (requestType, bodies) :: rest, w =>
    match publish requestType bodies w with
    | (.ok (), w') => publishAll publish rest w'
    | (.error err, w') => (.error err, w')

end AmpcCommon.Modifications
