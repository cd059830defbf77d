import Monitoring.Server.Database
import Monitoring.Server.EventBlock

/-!
# `Monitoring.Server.Upload`: `upload_task`

An iteration takes the EVENT at the back of EVENTS_TO_UPLOAD and asks the database for the id of its
user, which it inserts if there is none, and for the id of its machine. Then it inserts the row.
`event_mutex` is held all the time, so nobody pushes in between. The other tables of the server play
no part.

The two ids are locals without an initialiser. Where a `SELECT` returns no row they keep what they
hold, as a rule the ids of the last EVENT; that is an input (`UploadPass.userId`, `machineId`).

`uploadStep` puts the iterations between the pushes of the decoder and the rows that others add to
the tables. Nobody deletes or renames a row. `handed` is a ghost: the statements that were handed to
the database, each with the EVENT it was made for.
-/

set_option autoImplicit false

namespace Monitoring.Server

open Monitoring.Lib

/-! ### An iteration -/

/-- The answers, in the order of the calls. A call that is not made has one too. -/
structure UploadReplies where
  user : StoreReply
  userInsert : ExecReply
  newUser : StoreReply
  machine : StoreReply
  event : ExecReply
deriving DecidableEq, Repr

/-- What an iteration meets: `conn.connected()`, the answers, and what the locals hold. -/
structure UploadPass where
  connected : Bool
  replies : UploadReplies
  userId : Int
  machineId : Int
deriving DecidableEq, Repr

/-- From the `SELECT` on `machine` on. -/
def uploadMachine (p : UploadPass) (e : EVENT) (userId : Int) : List Statement :=
  .selectMachine e.machine ::
    match p.replies.machine with
    -- true as soon as the query ran, also without a row
    | .rows ids =>
        [.insertEvent e.timestamp (ids.getLastD p.machineId) userId e.data e.blockOffset]
    | .failed => []
    | .badQuery => []

/-- The `try` block: the statements that are handed to the database. -/
def uploadEvent (p : UploadPass) (e : EVENT) : List Statement :=
  .selectUser e.user ::
    match p.replies.user with
    | .rows [] =>
        .insertUser e.user e.guestType ::
          match p.replies.userInsert with
          | .badQuery => []
          -- "Insert user failed" is logged, no more
          | .done | .failed =>
              .selectUser e.user ::
                match p.replies.newUser with
                | .rows ids => uploadMachine p e (ids.getLastD p.userId)
                | .failed => uploadMachine p e p.userId
                | .badQuery => []
    | .rows (id :: ids) => uploadMachine p e ((id :: ids).getLastD p.userId)
    | .failed => []
    | .badQuery => []

/-- An iteration of the loop: the queue behind it, and the statements. -/
def uploadPass (p : UploadPass) (eventsToUpload : List EVENT) : List EVENT × List Statement :=
  match eventsToUpload.getLast? with
  -- `sleep(1)`
  | none => (eventsToUpload, [])
  | some e =>
      -- `pop_back` comes before the first query
      if p.connected then (eventsToUpload.dropLast, uploadEvent p e) else (eventsToUpload, [])

/-! ### Runs -/

/-- The queue, the tables, and the ghost. -/
structure UploadState where
  eventsToUpload : List EVENT
  db : Database
  handed : List (EVENT × Statement)
deriving DecidableEq, Repr

/-- The tables as the three `SELECT`s of an iteration find them, and as they are behind it. -/
structure PassTables where
  user : List Row
  newUser : List Row
  machine : List Row
  after : Database
deriving DecidableEq, Repr

/-- The decoder pushes an EVENT, somebody adds rows, or an iteration. -/
inductive UploadAction
  | push (e : EVENT)
  | addRows (user machine : List Row)
  | pass (p : UploadPass) (tables : PassTables)
deriving DecidableEq, Repr

/-- The database can give the answers: between the calls rows are only added, and a `SELECT` finds
the rows of the name. -/
def PossiblePass (same : Bytes → Bytes → Bool) (db : Database) (e : EVENT) (p : UploadPass)
    (tables : PassTables) : Prop :=
  db.user ⊆ tables.user ∧ tables.user ⊆ tables.newUser ∧ tables.newUser ⊆ tables.after.user ∧
    db.machine ⊆ tables.machine ∧ tables.machine ⊆ tables.after.machine ∧
    Answers same tables.user e.user p.replies.user ∧
    Answers same tables.newUser e.user p.replies.newUser ∧
    Answers same tables.machine e.machine p.replies.machine

instance (same : Bytes → Bytes → Bool) (db : Database) (e : EVENT) (p : UploadPass)
    (tables : PassTables) : Decidable (PossiblePass same db e p tables) :=
  inferInstanceAs (Decidable (_ ∧ _))

/-- The state after an action; `none` if the database does not give these answers. -/
def uploadStep (same : Bytes → Bytes → Bool) (s : UploadState) : UploadAction → Option UploadState
  | .push e => some { s with eventsToUpload := s.eventsToUpload ++ [e] }
  | .addRows user machine => some { s with db := ⟨s.db.user ++ user, s.db.machine ++ machine⟩ }
  | .pass p tables =>
      match s.eventsToUpload.getLast? with
      | none => some s
      | some e =>
          if p.connected then
            if PossiblePass same s.db e p tables then
              some {
                eventsToUpload := (uploadPass p s.eventsToUpload).1
                db := tables.after
                handed := s.handed ++ (uploadPass p s.eventsToUpload).2.map fun q => (e, q) }
            else none
          else some s

/-- Before the first iteration. -/
def UploadState.start (eventsToUpload : List EVENT) (db : Database) : UploadState :=
  ⟨eventsToUpload, db, []⟩

end Monitoring.Server
