import AmpcCommon.Base.RelyGuarantee
import Mathlib.Data.List.Forall2
import Mathlib.Logic.Function.Basic

/-!
# A database

A table in a database that several clients use at the same time, as far as its documentation describes it. What is
committed is a log of transactions, and the contents are what the log leaves. A statement reads a snapshot of the log
that holds all that was committed when the client got its last answer. An answer can be lost: then a statement has been
applied or not, and a commit can still be applied later. `Allowed` is what a request can do, `Internal` is what happens
without one, and a `Server` is anything that does nothing else (`Server.Documented`). A client is a program of requests;
the others use the database in the ways of a `Usage`. -/

namespace Database

variable {C ρ : Type}

/-! ## Contents -/

/-- The row under a key is replaced, or removed. -/
structure Change (ρ : Type) where
  key : Int
  row : Option ρ
  deriving Repr, DecidableEq

/-- The rows under their keys. -/
abbrev Contents (ρ : Type) := Int → Option ρ

/-- The contents after some changes. -/
def apply (m : Contents ρ) (changes : List (Change ρ)) : Contents ρ :=
  changes.foldl (fun m change => Function.update m change.key change.row) m

/-- A transaction of a client, under a number of its own. -/
structure Commit (C ρ : Type) where
  client : C
  number : Nat
  changes : List (Change ρ)
  deriving Repr, DecidableEq

def Commit.label (e : Commit C ρ) : C × Nat := (e.client, e.number)

/-- The contents that a log leaves. -/
def replay (log : List (Commit C ρ)) : Contents ρ := apply (fun _ => none) (log.flatMap Commit.changes)

/-- What the changes make of one key, in their order. -/
def versions (k : Int) (changes : List (Change ρ)) : List (Option ρ) :=
  (changes.filter fun change => change.key = k).map Change.row

/-- What has happened to a key. -/
def history (k : Int) (log : List (Commit C ρ)) : List (Option ρ) := versions k (log.flatMap Commit.changes)

/-! ## Requests -/

/-- A statement. An inserted row is made from its key; an update replaces a row by one of its new versions, if it has
any. -/
inductive Statement (ρ : Type) where
  | insert (rows : List (Int → ρ))
  | update (versions : ρ → List ρ)
  | delete (selects : ρ → Bool)
  | select (selects : ρ → Bool) (order : ρ → Int) (limit : Option Int)

inductive Request (ρ : Type) where
  | begin
  | execute (statement : Statement ρ) (parameters : Nat)
  | commit
  | rollback

/-- What a statement returns: the number of rows that it has written, rows, and what ends them early. -/
structure Result (ρ : Type) where
  rowsAffected : Nat
  rows : List ρ
  failure : Option String
  deriving Repr, DecidableEq

abbrev Answer (ρ : Type) := Except String (Result ρ)

/-! ## The state of the database -/

/-- The transaction of a client: `failed` after an error, `closed` when the connection is lost. -/
inductive Tx (ρ : Type) where
  | idle
  | running (number : Nat) (changes : List (Change ρ))
  | failed
  | closed
  deriving Repr, DecidableEq

/-- What a transaction has changed so far. -/
def Tx.changes : Tx ρ → List (Change ρ)
  | running _ changes => changes
  | _ => []

/-- The transaction after an error. -/
def Tx.fail : Tx ρ → Tx ρ
  | running _ _ => failed
  | tx => tx

/-- What a database keeps. -/
structure View (C ρ : Type) where
  log : List (Commit C ρ)
  /-- The transactions whose commit was not answered, and that can still be committed. -/
  late : List (Commit C ρ)
  tx : C → Tx ρ
  /-- The number of requests of a client. -/
  count : C → Nat
  /-- The length of the log when the client got its last answer. -/
  seen : C → Nat
  /-- The transaction that a key was allotted to. -/
  owner : Int → Option (C × Nat)

def View.initial : View C ρ := ⟨[], [], fun _ => .idle, fun _ => 0, fun _ => 0, fun _ => none⟩

/-- The changes of an insert. -/
def inserted (rows : List (Int → ρ)) (keys : List Int) : List (Change ρ) :=
  List.zipWith (fun make k => ⟨k, some (make k)⟩) rows keys

/-- The number of parameters of a statement: their count is sent in 16 bits. -/
def maxParameters : Nat := 65535

/-- The rows that a query can return before it is cut at its limit: those it selects, each once and in the order. -/
structure Finds (m : Contents ρ) (selects : ρ → Bool) (order : ρ → Int) (keys : List Int) (rows : List ρ) : Prop where
  nodup : keys.Nodup
  mem : ∀ k, k ∈ keys ↔ ∃ row, m k = some row ∧ selects row = true
  found : List.Forall₂ (fun k row => m k = some row) keys rows
  sorted : rows.Pairwise fun a b => order a ≤ order b

/-- The rows up to the limit. -/
def limited (limit : Option Int) (rows : List ρ) : List ρ :=
  match limit with
  | none => rows
  | some n => rows.take n.toNat

/-- What a query can return. -/
inductive Reads (m : Contents ρ) : Statement ρ → Result ρ → Prop where
  | all {selects order limit keys rows affected} : Finds m selects order keys rows → (∀ n, limit = some n → 0 ≤ n) →
      Reads m (.select selects order limit) ⟨affected, limited limit rows, none⟩
  | interrupted {selects order limit keys rows affected read e} : Finds m selects order keys rows →
      (∀ n, limit = some n → 0 ≤ n) → read <+: limited limit rows →
      Reads m (.select selects order limit) ⟨affected, read, some e⟩

/-- What a statement can change in the contents `now`, with the snapshot `old`, after the changes `before` of its own
transaction. A row is written if it is selected in both; the keys of new rows are new. -/
inductive Writes (accepts : ρ → Bool) (owner : Int → Option (C × Nat)) (old now : Contents ρ)
    (before : List (Change ρ)) : Statement ρ → List (Change ρ) → Prop where
  | insert {rows : List (Int → ρ)} {keys : List Int} : keys.length = rows.length → keys.Pairwise (· < ·) →
      (∀ k ∈ keys, owner k = none) → (∀ k ∈ keys, ∀ change ∈ before, change.key < k) →
      (∀ change ∈ inserted rows keys, ∀ row, change.row = some row → accepts row = true) →
      Writes accepts owner old now before (.insert rows) (inserted rows keys)
  | update {versions : ρ → List ρ} {changes : List (Change ρ)} : (changes.map Change.key).Nodup →
      (∀ change ∈ changes, ∃ row row', now change.key = some row ∧ row' ∈ versions row ∧ change.row = some row') →
      (∀ k row row₀, now k = some row → old k = some row₀ → versions row ≠ [] → versions row₀ ≠ [] →
        k ∈ changes.map Change.key) →
      Writes accepts owner old now before (.update versions) changes
  | delete {selects : ρ → Bool} {changes : List (Change ρ)} : (changes.map Change.key).Nodup →
      (∀ change ∈ changes, ∃ row, now change.key = some row ∧ selects row = true ∧ change.row = none) →
      (∀ k row row₀, now k = some row → old k = some row₀ → selects row = true → selects row₀ = true →
        k ∈ changes.map Change.key) →
      Writes accepts owner old now before (.delete selects) changes

/-- The contents as a client sees them when the log has the length `n`: with the changes of its own transaction. -/
def View.contents (v : View C ρ) (c : C) (n : Nat) : Contents ρ := apply (replay (v.log.take n)) (v.tx c).changes

/-- The transactions that are not at their end, with their changes so far. -/
def View.Unfinished (v : View C ρ) (label : C × Nat) (changes : List (Change ρ)) : Prop :=
  v.tx label.1 = .running label.2 changes ∨ ∃ e ∈ v.late, e.label = label ∧ e.changes = changes

/-- The rows are not locked: no other unfinished transaction has changed them. -/
def View.Free (v : View C ρ) (label : C × Nat) (changes : List (Change ρ)) : Prop :=
  ∀ label' changes', v.Unfinished label' changes' → label' ≠ label →
    ∀ change ∈ changes, ∀ change' ∈ changes', change'.key ≠ change.key

/-- The lengths of the log that a snapshot can have. -/
def View.Snapshot (v : View C ρ) (c : C) (n : Nat) : Prop := v.seen c ≤ n ∧ n ≤ v.log.length

/-- The keys that were allotted stay with their transactions. -/
def Keeps (owner owner' : Int → Option (C × Nat)) : Prop := ∀ k x, owner k = some x → owner' k = some x

variable [DecidableEq C]

/-- The state after an answer to a client. -/
def View.answered (v : View C ρ) (c : C) (log late : List (Commit C ρ)) (tx : Tx ρ) (owner : Int → Option (C × Nat)) :
    View C ρ where
  log := log
  late := late
  tx := Function.update v.tx c tx
  count := Function.update v.count c (v.count c + 1)
  seen := Function.update v.seen c log.length
  owner := owner

/-! ## What can happen -/

/-- What a request of a client can be answered, and what it can leave. `accepts` is the constraint of the table. -/
inductive Allowed (accepts : ρ → Bool) (c : C) (v : View C ρ) : Request ρ → Answer ρ → View C ρ → Prop where
  | begin {result owner} : v.tx c = .idle → Keeps v.owner owner →
      Allowed accepts c v .begin (.ok result) (v.answered c v.log v.late (.running (v.count c) []) owner)
  | beginError {e owner} : Keeps v.owner owner →
      Allowed accepts c v .begin (.error e) (v.answered c v.log v.late (v.tx c) owner)
  | read {statement parameters result owner n} : Keeps v.owner owner → v.Snapshot c n →
      Reads (v.contents c n) statement result →
      Allowed accepts c v (.execute statement parameters) (.ok result) (v.answered c v.log v.late (v.tx c) owner)
  /-- A statement on its own is a transaction. -/
  | written {statement parameters changes owner n} : Keeps v.owner owner → v.tx c = .idle →
      parameters ≤ maxParameters → v.Snapshot c n →
      Writes accepts v.owner (v.contents c n) (v.contents c v.log.length) [] statement changes →
      v.Free (c, v.count c) changes →
      (∀ change ∈ changes, v.owner change.key = none → owner change.key = some (c, v.count c)) →
      Allowed accepts c v (.execute statement parameters) (.ok ⟨changes.length, changes.filterMap Change.row, none⟩)
        (v.answered c (v.log ++ [⟨c, v.count c, changes⟩]) v.late .idle owner)
  | writtenLost {statement parameters changes owner n e} : Keeps v.owner owner → v.tx c = .idle →
      parameters ≤ maxParameters → v.Snapshot c n →
      Writes accepts v.owner (v.contents c n) (v.contents c v.log.length) [] statement changes →
      v.Free (c, v.count c) changes →
      (∀ change ∈ changes, v.owner change.key = none → owner change.key = some (c, v.count c)) →
      Allowed accepts c v (.execute statement parameters) (.error e)
        (v.answered c (v.log ++ [⟨c, v.count c, changes⟩]) v.late .idle owner)
  | pending {statement parameters changes owner n number before} : Keeps v.owner owner →
      v.tx c = .running number before → parameters ≤ maxParameters → v.Snapshot c n →
      Writes accepts v.owner (v.contents c n) (v.contents c v.log.length) before statement changes →
      v.Free (c, number) changes →
      (∀ change ∈ changes, v.owner change.key = none → owner change.key = some (c, number)) →
      Allowed accepts c v (.execute statement parameters) (.ok ⟨changes.length, changes.filterMap Change.row, none⟩)
        (v.answered c v.log v.late (.running number (before ++ changes)) owner)
  | refused {statement parameters e owner} : Keeps v.owner owner →
      Allowed accepts c v (.execute statement parameters) (.error e) (v.answered c v.log v.late (v.tx c).fail owner)
  | commit {result owner number changes} : Keeps v.owner owner → v.tx c = .running number changes →
      Allowed accepts c v .commit (.ok result)
        (v.answered c (v.log ++ [⟨c, number, changes⟩]) v.late .idle owner)
  | commitLost {e owner number changes} : Keeps v.owner owner → v.tx c = .running number changes →
      Allowed accepts c v .commit (.error e)
        (v.answered c v.log (v.late ++ [⟨c, number, changes⟩]) .idle owner)
  | commitRefused {e owner} : Keeps v.owner owner →
      Allowed accepts c v .commit (.error e) (v.answered c v.log v.late .idle owner)
  /-- The commit of a transaction that has failed rolls it back. -/
  | commitFailed {answer owner} : Keeps v.owner owner → v.tx c = .failed →
      Allowed accepts c v .commit answer (v.answered c v.log v.late .idle owner)
  | rollback {answer owner} : Keeps v.owner owner →
      Allowed accepts c v .rollback answer (v.answered c v.log v.late .idle owner)

/-- What can happen without a request. -/
inductive Internal (v : View C ρ) : View C ρ → Prop where
  | settle {before e after} : v.late = before ++ e :: after →
      Internal v { v with log := v.log ++ [e], late := before ++ after }
  | drop {before e after} : v.late = before ++ e :: after → Internal v { v with late := before ++ after }
  | close {c number changes} : v.tx c = .running number changes →
      Internal v { v with tx := Function.update v.tx c .closed }
  | allot {owner} : Keeps v.owner owner → Internal v { v with owner := owner }

/-- A database. A choice says which of its answers it gives. -/
structure Server (C ρ : Type) where
  State : Type
  Choice : Type
  view : State → View C ρ
  perform : C → Request ρ → Choice → State → Option (Answer ρ × State)
  internal : Choice → State → Option State

/-- The server does nothing else than what is documented. -/
structure Server.Documented (server : Server C ρ) (accepts : ρ → Bool) : Prop where
  perform : ∀ c request choice s answer t, server.perform c request choice s = some (answer, t) →
    Allowed accepts c (server.view s) request answer (server.view t)
  internal : ∀ choice s t, server.internal choice s = some t → Internal (server.view s) (server.view t)

/-! ## Clients -/

/-- A client is a program of requests. -/
abbrev Program (ρ α : Type) := RelyGuarantee.Prog (Request ρ) (fun _ => Answer ρ) α

def request (r : Request ρ) : Program ρ (Answer ρ) := RelyGuarantee.Prog.call r

/-- All rows of an answer, or what went wrong. -/
def Answer.all : Answer ρ → Except String (List ρ)
  | .error e => .error e
  | .ok result =>
    match result.failure with
    | some e => .error e
    | none => .ok result.rows

/-- The first row of an answer, or what went wrong before it. -/
def Answer.one : Answer ρ → Except String ρ
  | .error e => .error e
  | .ok result =>
    match result.rows, result.failure with
    | row :: _, _ => .ok row
    | [], some e => .error e
    | [], none => .error "no rows returned by a query that expected to return at least one row"

/-- How clients use a database: the requests that they make. -/
structure Usage (ρ : Type) where
  Query : Type
  request : Query → Request ρ

/-- What happens beside a client. -/
inductive Event (server : Server C ρ) (usage : Usage ρ) where
  | request (client : C) (query : usage.Query) (choice : server.Choice)
  | internal (choice : server.Choice)

/-- A step of the others, or of the database. -/
def Server.interfere (server : Server C ρ) (usage : Usage ρ) (c : C) :
    Event server usage → server.State → Option server.State
  | .request client query choice, s =>
    if client ≠ c then
      (server.perform client (usage.request query) choice s).map Prod.snd
    else none
  | .internal choice, s => server.internal choice s

end Database
