import Monitoring.Lib.UniqueTable
import Monitoring.Server.Database
import Monitoring.Server.EventBlock

/-!
# `Monitoring.Server.EventStore`: `upload_task` and the tables it writes to

`Monitoring.Server.Upload` has an iteration of `upload_task` with whatever the database answers.
Here are the tables themselves, as `monitoring-server-db.gz` creates them: `user` and `machine` have
an AUTO_INCREMENT id and a UNIQUE name, and `event` has a UNIQUE key of four columns. A number that
does not fit into its column is stored as the nearest one that does, and of a name `user` keeps what
fits into sixteen characters. Names are equal when the collation gives them the same weights.

Each statement is a step of its own, so others may insert machines in between. `event_mutex` is held
during an iteration, so the decoder pushes only outside of it. The connection is made with
`conn(false)`, but an error may still be an exception here. The answer to a statement is an input,
with the conditions of `Monitoring.Server.Database` on it.

`inserted` is a ghost: the EVENTs whose `INSERT INTO event` has come to the table.
-/

set_option autoImplicit false

namespace Monitoring.Server

open Monitoring.Lib

/-! ### The tables -/

/-- The weights of a name in the collation of the tables, and what the column `user_name` keeps of
it. -/
structure Charset where
  weight : Bytes → Bytes
  userName : Bytes → Bytes

/-- The comparison of names. -/
def Charset.same (cs : Charset) (a b : Bytes) : Bool := cs.weight a = cs.weight b

/-- A number in an unsigned column. -/
def unsignedColumn (bits : Nat) (n : Int) : Int := max 0 (min n (2 ^ bits - 1))

/-- A row of `event`. Its ids come from columns of the same types. -/
structure EventRow where
  timestamp : Int
  machineId : Int
  userId : Int
  data : Int
  dataOffset : Int
deriving DecidableEq, Repr

/-- `UNIQUE KEY mykey`. -/
def EventRow.mykey (row : EventRow) : Int × Int × Int × Int :=
  (row.timestamp, row.machineId, row.userId, row.dataOffset)

/-- The row of the `INSERT INTO event`. -/
def EVENT.row (e : EVENT) (machineId userId : Int) : EventRow where
  timestamp := unsignedColumn 32 e.timestamp
  machineId := machineId
  userId := userId
  data := unsignedColumn 32 e.data
  dataOffset := unsignedColumn 8 e.blockOffset

/-- The three tables. -/
structure EventDb extends Database where
  event : List EventRow
deriving DecidableEq, Repr

/-- The row can be added to a table of names: its AUTO_INCREMENT id is new, and so is its name. -/
def Addable (cs : Charset) (table : List Row) (row : Row) : Prop :=
  row.id ∉ table.map Row.id ∧ cs.weight row.name ∉ table.map fun row => cs.weight row.name

instance (cs : Charset) (table : List Row) (row : Row) : Decidable (Addable cs table row) :=
  inferInstanceAs (Decidable (_ ∧ _))

/-! ### `upload_task` -/

/-- Where an iteration is, with the EVENT that it took: about to execute the `SELECT` on `user`, the
`INSERT` there, the `SELECT` behind it, the `SELECT` on `machine`, or the `INSERT INTO event`. -/
inductive UploadPc
  | idle
  | selectUser (e : EVENT)
  | insertUser (e : EVENT)
  | selectNewUser (e : EVENT)
  | selectMachine (e : EVENT)
  | insertEvent (e : EVENT)
deriving DecidableEq, Repr

/-- The queue, the thread with its two locals, the tables, and the ghost. -/
structure Uploader where
  eventsToUpload : List EVENT
  pc : UploadPc
  userId : Int
  machineId : Int
  db : EventDb
  inserted : List EVENT
deriving DecidableEq, Repr

/-- The decoder pushes an EVENT, or somebody inserts a machine; an iteration begins, with whatever
the locals hold; a `SELECT` is answered; an `INSERT INTO user` is, and `row` is what it adds if it
succeeds; or an `INSERT INTO event` comes to the table, or does not. -/
inductive UploaderAction
  | push (e : EVENT)
  | addMachine (row : Row)
  | begin (userId machineId : Int)
  | select (reply : StoreReply)
  | insertUser (reply : ExecReply) (row : Row)
  | insertEvent (reaches : Bool)
deriving DecidableEq, Repr

/-- The answer to a `SELECT`. -/
def Uploader.select (cs : Charset) (s : Uploader) (reply : StoreReply) : Option Uploader :=
  match s.pc with
  | .selectUser e =>
      if Answers cs.same s.db.user e.user reply then
        match reply with
        | .rows [] => some { s with pc := .insertUser e }
        | .rows ids => some { s with pc := .selectMachine e, userId := ids.getLastD s.userId }
        | .failed | .badQuery => some { s with pc := .idle }
      else none
  | .selectNewUser e =>
      if Answers cs.same s.db.user e.user reply then
        match reply with
        | .rows ids => some { s with pc := .selectMachine e, userId := ids.getLastD s.userId }
        -- "Query failed -- inserting new user ID failed"
        | .failed => some { s with pc := .selectMachine e }
        | .badQuery => some { s with pc := .idle }
      else none
  | .selectMachine e =>
      if Answers cs.same s.db.machine e.machine reply then
        match reply with
        | .rows ids => some { s with pc := .insertEvent e, machineId := ids.getLastD s.machineId }
        | .failed | .badQuery => some { s with pc := .idle }
      else none
  | _ => none

/-- The answer to an `INSERT INTO user`. -/
def Uploader.insertUser (cs : Charset) (s : Uploader) (reply : ExecReply) (row : Row) :
    Option Uploader :=
  match s.pc, reply with
  | .insertUser e, .done =>
      if Addable cs s.db.user row ∧ (Plain e.user → row.name = cs.userName e.user) then
        some { s with pc := .selectNewUser e, db := { s.db with user := s.db.user ++ [row] } }
      else none
  | .insertUser e, .failed => some { s with pc := .selectNewUser e }
  | .insertUser _, .badQuery => some { s with pc := .idle }
  | _, _ => none

/-- The `INSERT INTO event`. A row that is there already makes it fail, which nobody notices. -/
def Uploader.insertEvent (s : Uploader) (reaches : Bool) : Option Uploader :=
  match s.pc with
  | .insertEvent e =>
      if reaches then
        some { s with
          pc := .idle
          db := { s.db with
            event := insertUnique EventRow.mykey (e.row s.machineId s.userId) s.db.event }
          inserted := s.inserted ++ [e] }
      else some { s with pc := .idle }
  | _ => none

/-- The state after an action; `none` if it is not possible. -/
def uploaderStep (cs : Charset) (s : Uploader) : UploaderAction → Option Uploader
  | .push e =>
      if s.pc = .idle then some { s with eventsToUpload := s.eventsToUpload ++ [e] } else none
  | .addMachine row =>
      if Addable cs s.db.machine row then
        some { s with db := { s.db with machine := s.db.machine ++ [row] } }
      else none
  | .begin userId machineId =>
      match s.pc, s.eventsToUpload.getLast? with
      | .idle, some e =>
          some { s with
            eventsToUpload := s.eventsToUpload.dropLast
            pc := .selectUser e
            userId := userId
            machineId := machineId }
      | _, _ => none
  | .select reply => s.select cs reply
  | .insertUser reply row => s.insertUser cs reply row
  | .insertEvent reaches => s.insertEvent reaches

/-- Before the first iteration. -/
def Uploader.start (db : EventDb) : Uploader := ⟨[], .idle, 0, 0, db, []⟩

end Monitoring.Server
