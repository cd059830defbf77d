import Monitoring.Lib.Table
import Monitoring.Server.Database

/-!
# `Monitoring.Server.MachineStatus`: the column `machine_status`

Two functions write it. `db_machine_insert` inserts a machine that calls home for the first time,
and `update_mstatus` goes over MAP_MNAME_STATUS at intervals and writes what it finds. A status is
1 (logged in), 2 (logged out) or 3 (offline); 0 is what `operator[]` makes of an entry that was
never set.

`statusStep` interleaves them, an entry of the map at a time, with the threads that set a status and
with others that add rows. `handed` is a ghost: the statements that were handed to the database,
with the map and the table `machine` as they were at that moment.
-/

set_option autoImplicit false

namespace Monitoring.Server

open Monitoring.Lib

/-- The values that `handle_gather` and the decoder store. -/
inductive MachineStatus
  | loggedIn
  | loggedOut
  | offline
deriving DecidableEq, Repr

/-- The number that stands for it. -/
def MachineStatus.number : MachineStatus → Int
  | .loggedIn => 1
  | .loggedOut => 2
  | .offline => 3

/-- A statement, and the state it was made in. -/
structure Handed where
  statement : Statement
  mapMnameStatus : Table Bytes Int
  machine : List Row

/-- The map, the table `machine`, the iterator of `update_mstatus` (`none` outside of its loop), and
the ghost. -/
structure StatusState where
  mapMnameStatus : Table Bytes Int
  machine : List Row
  it : Option Bytes
  handed : List Handed

/-- Hands statements to the database. -/
def StatusState.hand (s : StatusState) (statements : List Statement) : StatusState :=
  { s with handed := s.handed ++ statements.map fun q => ⟨q, s.mapMnameStatus, s.machine⟩ }

/-! ### `db_machine_insert` -/

/-- What a call meets. The answer to its `INSERT` changes nothing but the log. -/
structure RegisterReplies where
  connected : Bool
  machine : StoreReply
deriving DecidableEq, Repr

/-- The call comes to its `INSERT`. A result that tests as false has no rows either. -/
def RegisterReplies.Inserts (r : RegisterReplies) : Prop :=
  r.connected = true ∧ (r.machine = .rows [] ∨ r.machine = .failed)

instance (r : RegisterReplies) : Decidable r.Inserts := inferInstanceAs (Decidable (_ ∧ _))

/-- `db_machine_insert`. What it returns only decides what `handle_listen` logs. -/
def StatusState.dbMachineInsert (s : StatusState) (machine : Bytes) (r : RegisterReplies) :
    StatusState :=
  if r.connected then
    let s := s.hand [.selectMachine machine]
    if r.Inserts then
      -- `MAP_MNAME_STATUS[machine]` stands in the text
      let s := { s with mapMnameStatus := s.mapMnameStatus.touch machine 0 }
      s.hand [.insertMachine machine (s.mapMnameStatus.read machine 0)]
    else s
  else s

/-! ### `update_mstatus` -/

/-- What the loop meets at an entry: the answers, and what the local `machine_id` holds. -/
structure VisitReplies where
  machine : StoreReply
  insert : ExecReply
  newMachine : StoreReply
  update : ExecReply
  machineId : Int
deriving DecidableEq, Repr

/-- The statements at the entry `name` with the value `status`, and whether none of them raises. -/
def visitEntry (r : VisitReplies) (name : Bytes) (status : Int) : List Statement × Bool :=
  match r.machine with
  | .rows [] =>
      match r.insert with
      | .badQuery => ([.selectMachine name, .insertMachine name status], false)
      | .done | .failed =>
          let statements := [.selectMachine name, .insertMachine name status, .selectMachine name]
          match r.newMachine with
          | .rows ids =>
              -- `it->first`, where the other branches have `it->second`
              (statements ++ [.updateMachine name true (ids.getLastD r.machineId)],
                r.update ≠ .badQuery)
          | .failed => (statements, true)
          | .badQuery => (statements, false)
  | .rows (id :: ids) =>
      -- "If machine_status == OFFLINE, don't update the last_communication timestamp"
      ([.selectMachine name,
          .updateMachine (printDec status) (status ≠ 3) ((id :: ids).getLastD r.machineId)],
        r.update ≠ .badQuery)
  | .failed => ([.selectMachine name], true)
  | .badQuery => ([.selectMachine name], false)

/-- The first of some names in the order of `std::string`. -/
def firstName : List Bytes → Option Bytes
  | [] => none
  | name :: names =>
      some (match firstName names with
        | none => name
        | some first => if first < name then first else name)

/-- The entry behind `it` in the order of the map, or the first one. -/
def nextEntry (t : Table Bytes Int) (it : Option Bytes) : Option Bytes :=
  firstName (t.keys.filter fun name => it.all fun last => decide (last < name))

/-- The body of the loop. A statement that raises ends the pass. -/
def StatusState.visit (s : StatusState) (name : Bytes) (r : VisitReplies) (after : List Row) :
    StatusState :=
  let s :=
    if s.mapMnameStatus.read name 0 = 0 then
      { s with mapMnameStatus := s.mapMnameStatus.set name 2 }
    else s
  let (statements, returns) := visitEntry r name (s.mapMnameStatus.read name 0)
  { ({ s with machine := after }.hand statements) with
    it := if returns then nextEntry s.mapMnameStatus (some name) else none }

/-! ### Runs -/

/-- A status is set, an `INSERT` of anybody adds rows, a machine is registered, or `update_mstatus`
begins its loop or comes to the entry of its iterator. There, `found` is the table in which the
first answer was found, and `after` the table behind all statements. -/
inductive StatusAction
  | setStatus (name : Bytes) (status : MachineStatus)
  | addRows (machine : List Row)
  | register (name : Bytes) (r : RegisterReplies)
  | beginPass
  | visit (r : VisitReplies) (found after : List Row)

/-- The state after an action; `none` if it is not possible. -/
def statusStep (same : Bytes → Bytes → Bool) (s : StatusState) : StatusAction → Option StatusState
  | .setStatus name status =>
      some { s with mapMnameStatus := s.mapMnameStatus.set name status.number }
  | .addRows machine => some { s with machine := s.machine ++ machine }
  | .register name r => some (s.dbMachineInsert name r)
  | .beginPass =>
      match s.it with
      | none => some { s with it := nextEntry s.mapMnameStatus none }
      | some _ => none
  | .visit r found after =>
      match s.it with
      | none => none
      | some name =>
          if s.machine ⊆ found ∧ found ⊆ after ∧ Answers same found name r.machine then
            some (s.visit name r after)
          else none

/-- Before the first registration and the first pass. -/
def StatusState.start (mapMnameStatus : Table Bytes Int) (machine : List Row) : StatusState :=
  ⟨mapMnameStatus, machine, none, []⟩

end Monitoring.Server
