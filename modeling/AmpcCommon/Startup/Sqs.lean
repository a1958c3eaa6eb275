import AmpcCommon.Base.Counts
import AmpcCommon.Base.Outcome
import Mathlib.Data.List.Basic
import Mathlib.Order.Fin.Basic

/-!
# Synchronisation of the request queues

The model of `max_sns_sequence_num` (`startup_sync.rs`) and of `get_next_sns_seq_num` and
`delete_messages_until_sequence_num` (`sqs.rs`). The SQS client and the JSON parser are parameters; `Queue` is the
queue behind a client, which answers a long poll with its head or with nothing.
-/

namespace AmpcCommon.Startup

/-- `u128` -/
abbrev U128 := Fin (2 ^ 128)

/-- A message of an SQS queue, as a client receives it. -/
structure SqsMessage where
  body : Option String
  receiptHandle : Option String
  deriving Repr, DecidableEq

/-- `SQSMessage`, the message body, as far as it is read. -/
structure SNSMessage where
  sequenceNumber : String
  deriving Repr, DecidableEq

/-- The client of an SQS queue; `σ` is the state of the queue. -/
structure SqsClient (σ : Type) where
  /-- `receive_message` for at most one message, with the visibility timeout that is set. -/
  receiveMessage : Option Nat → σ → Except String (Option (List SqsMessage)) × σ
  deleteMessage : String → σ → Except String Unit × σ
  changeMessageVisibility : String → Nat → σ → Except String Unit × σ

/-- `str::parse::<u128>` on the digits behind the sign. -/
def parseDigits : U128 → List Char → Except String U128
  | n, [] => .ok n
  | n, c :: cs =>
    if ¬ c.isDigit then .error "invalid digit found in string"
    else if h : n.val * 10 + (c.toNat - '0'.toNat) < 2 ^ 128 then
      parseDigits ⟨n.val * 10 + (c.toNat - '0'.toNat), h⟩ cs
    else .error "number too large to fit in target type"

/-- `str::parse::<u128>` -/
def parseU128 (s : String) : Except String U128 :=
  match s.toList with
  | [] => .error "cannot parse integer from empty string"
  | ['+'] | ['-'] => .error "invalid digit found in string"
  | '+' :: cs => parseDigits 0 cs
  | cs => parseDigits 0 cs

/-- The sequence number in a message body. -/
def parseNumber (message : SNSMessage) : Outcome U128 :=
  match parseU128 message.sequenceNumber with
  | .error e => .bail s!"sequence number is not a number: {e}"
  | .ok n => .ok n

section Client

variable {σ : Type} (client : SqsClient σ) (fromStr : String → Except String SNSMessage)

/-- `get_next_sns_seq_num` -/
def getNextSnsSeqNum (s : σ) : Outcome (Option U128) × σ :=
  match client.receiveMessage (some 0) s with
  | (.error _, s) => (.bail "while reading from SQS to snoop on the next message", s)
  | (.ok none, s) => (.ok none, s)
  | (.ok (some [msg]), s) =>
    match fromStr (msg.body.getD "") with
    | .error _ => (.bail "Found corrupt message in queue while parsing SNS message from body", s)
    | .ok message => ((parseNumber message).map some, s)
  | (.ok (some msgs), s) => (.bail s!"Expected exactly one message, but found {msgs.length}", s)

/-- `unwrap` -/
def unwrap {α : Type} : Option α → Outcome α
  | some a => .ok a
  | none => .panicked "called `Option::unwrap()` on a `None` value"

/-- The sequence number of a message that was received. -/
def sequenceNum (msg : SqsMessage) : Outcome U128 := do
  let body ← unwrap msg.body
  match fromStr body with
  | .error e => .bail s!"message is not a valid SQS message: {e}"
  | .ok message => parseNumber message

/-- What is done with a message that was received: `none` when it was deleted and the loop goes on. -/
def handleMessage (target : U128) (msg : SqsMessage) (s : σ) : Option (Outcome Unit) × σ :=
  match sequenceNum fromStr msg with
  | .error e => (some (.error e), s)
  | .ok sequenceNum =>
    match unwrap msg.receiptHandle with
    | .error e => (some (.error e), s)
    | .ok receiptHandle =>
      if sequenceNum < target then
        match client.deleteMessage receiptHandle s with
        | (.error _, s) => (some (.bail "while deleting message from SQS"), s)
        | (.ok (), s) => (none, s)
      else
        match client.changeMessageVisibility receiptHandle 0 s with
        | (.error _, s) => (some (.bail "while changing message visibility in SQS"), s)
        | (.ok (), s) => (some (.ok ()), s)

/-- The loop of `delete_messages_until_sequence_num`; `none` when it has not ended after `fuel` polls. -/
def deleteLoop (target : U128) : Nat → σ → Option (Outcome Unit × σ)
  | 0, _ => none
  | fuel + 1, s =>
    match client.receiveMessage none s with
    | (.error _, s) => some (.bail "while reading from SQS to delete messages", s)
    | (.ok none, s) => deleteLoop target fuel s
    | (.ok (some [msg]), s) =>
      match handleMessage client fromStr target msg s with
      | (some result, s) => some (result, s)
      | (none, s) => deleteLoop target fuel s
    | (.ok (some msgs), s) =>
      some (.bail s!"Expected exactly one message in the queue, but found {msgs.length}", s)

/-- `delete_messages_until_sequence_num`; `none` when it has not ended after `fuel` polls. -/
def deleteMessagesUntilSequenceNum (mySequenceNum targetSequenceNum : Option U128) (fuel : Nat) (s : σ) :
    Option (Outcome Unit × σ) :=
  match targetSequenceNum with
  | none =>
    if mySequenceNum.isSome then
      some (.bail ("SQS target sequence number is None, but my sequence number is Some. " ++
        "This should not happen."), s)
    else some (.ok (), s)
  | some target =>
    if mySequenceNum = some target then some (.ok (), s)
    else deleteLoop client fromStr target fuel s

end Client

/-- How an optional number is printed by `{:?}`. -/
def debugNum : Option U128 → String
  | none => "None"
  | some n => s!"Some({n})"

/-- `max_sns_sequence_num` of the `next_sns_sequence_num` of all states. -/
def maxSnsSequenceNum (sequenceNums : List (Option U128)) : Outcome (Option U128) :=
  let anyEmptyQueues := sequenceNums.any Option.isNone
  let anyNonEmptyQueues := sequenceNums.any Option.isSome
  if anyEmptyQueues && anyNonEmptyQueues then
    let printed := ", ".intercalate (sequenceNums.map debugNum)
    .panicked s!"Can not deduce max SNS sequence number safely out of [{printed}]. Restarting..."
  else
    match sequenceNums.max? with
    | some max => .ok max
    | none => .panicked "can get max u128 value"

/-! ## The queue behind a client -/

/-- A message in a queue; its receipt handle is its id. -/
structure QueueMessage where
  id : String
  body : String
  deriving Repr, DecidableEq

/-- A message as a client receives it. -/
def QueueMessage.received (m : QueueMessage) : SqsMessage := ⟨some m.body, some m.id⟩

/-- A FIFO queue: while its head is in flight, no message is shown. -/
structure Queue where
  messages : List QueueMessage
  visible : Bool
  /-- Which of the long polls to come show the head, if it is visible. -/
  polls : List Bool
  deriving Repr, DecidableEq

namespace Queue

/-- The next long poll, with the queue after it. -/
def poll (q : Queue) : Bool × Queue :=
  match q.polls with
  | [] => (false, q)
  | shown :: polls => (shown, { q with polls := polls })

/-- The client of a queue. -/
def client : SqsClient Queue where
  receiveMessage timeout q :=
    let (shown, q) := q.poll
    match q.messages with
    | [] => (.ok none, q)
    | m :: _ =>
      if shown ∧ q.visible then (.ok (some [m.received]), { q with visible := timeout = some 0 })
      else (.ok none, q)
  deleteMessage receiptHandle q :=
    match q.messages with
    | [] => (.ok (), q)
    | m :: rest =>
      if m.id = receiptHandle ∧ ¬ q.visible then (.ok (), { q with messages := rest, visible := true })
      else (.ok (), q)
  changeMessageVisibility receiptHandle timeout q :=
    match q.messages with
    | [] => (.ok (), q)
    | m :: _ =>
      if m.id = receiptHandle ∧ timeout = 0 then (.ok (), { q with visible := true })
      else (.ok (), q)

end Queue

end AmpcCommon.Startup
