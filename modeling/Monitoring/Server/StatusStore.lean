import Monitoring.Server.EventStore
import Monitoring.Server.MachineStatus

/-!
# `Monitoring.Server.StatusStore`: `update_mstatus` and the table it writes to

`Monitoring.Server.MachineStatus` has the statements of `update_mstatus` with whatever the database
answers. Here is the table `machine` itself, with its AUTO_INCREMENT id, its UNIQUE name, and the
column `machine_status`. Each statement is a step of its own: in between, statuses are set, and
`db_machine_insert` adds rows. A text is written before its statement is executed, so a status may
be set in between as well.

The `UPDATE` behind an `INSERT` has the name of the machine in the place of the status. The database
takes it for an expression over the columns.

`current` is a ghost: the machines whose status has come into a text, and has not been set since.
-/

set_option autoImplicit false

namespace Monitoring.Server

open Monitoring.Lib

/-- A row of `machine`. -/
structure MachineRow extends Row where
  status : Int
deriving DecidableEq, Repr

/-- What the column `machine_name` keeps of a name, and the value that a name has as an expression
over a row. -/
structure MachineSql extends Charset where
  machineName : Bytes → Bytes
  expression : Bytes → MachineRow → Option Int

/-- Where `update_mstatus` is, with the entry of its iterator: outside of its loop, at the entry, or
about to execute the `SELECT`, the `INSERT`, the `SELECT` and the `UPDATE` behind it, or the
`UPDATE` of a machine that is there. A text has its numbers in it. -/
inductive VisitPc
  | idle
  | enter (name : Bytes)
  | select (name : Bytes)
  | insert (name : Bytes) (status : Int)
  | selectNew (name : Bytes)
  | updateNew (name : Bytes) (id : Int)
  | update (name : Bytes) (status id : Int)
deriving DecidableEq, Repr

/-- The map, the table, the thread with its local `machine_id`, and the ghost. -/
structure StatusStore where
  mapMnameStatus : Table Bytes Int
  machine : List MachineRow
  pc : VisitPc
  machineId : Int
  current : List Bytes

/-- A status is set; an entry is made by `operator[]`; somebody adds a row; a pass begins; the loop
comes to an entry, with whatever `machine_id` holds; or the database answers, where `row` is what an
`INSERT` adds if it succeeds. -/
inductive StatusStoreAction
  | setStatus (name : Bytes) (status : MachineStatus)
  | touch (name : Bytes)
  | addRow (row : MachineRow)
  | beginPass
  | enter (machineId : Int)
  | select (reply : StoreReply)
  | insert (reply : ExecReply) (row : Row)
  | update (reply : ExecReply)
deriving DecidableEq, Repr

/-- The ids and the names. -/
def StatusStore.rows (s : StatusStore) : List Row := s.machine.map MachineRow.toRow

/-- The statuses in the rows of a machine. -/
def StatusStore.shown (sql : MachineSql) (s : StatusStore) (name : Bytes) : List Int :=
  (s.machine.filter fun row => sql.weight row.name = sql.weight name).map MachineRow.status

/-- The entry behind this one. -/
def StatusStore.next (s : StatusStore) (name : Bytes) : VisitPc :=
  match nextEntry s.mapMnameStatus (some name) with
  | none => .idle
  | some name => .enter name

/-- A machine whose text was of no use. -/
def StatusStore.drop (s : StatusStore) (name : Bytes) : StatusStore :=
  { s with current := s.current.filter fun other => other ≠ name }

/-- The loop comes to its entry. -/
def StatusStore.enter (s : StatusStore) (machineId : Int) : Option StatusStore :=
  match s.pc with
  | .enter name =>
      some { s with
        mapMnameStatus :=
          if s.mapMnameStatus.read name 0 = 0 then s.mapMnameStatus.set name 2
          else s.mapMnameStatus
        pc := .select name
        machineId := machineId }
  | _ => none

/-- The answer to a `SELECT`. -/
def StatusStore.select (sql : MachineSql) (s : StatusStore) (reply : StoreReply) :
    Option StatusStore :=
  match s.pc with
  | .select name =>
      if Answers sql.same s.rows name reply then
        let status := s.mapMnameStatus.read name 0
        match reply with
        | .rows [] => some { s with pc := .insert name status, current := name :: s.current }
        | .rows ids =>
            some { s with
              pc := .update name status (ids.getLastD s.machineId)
              current := name :: s.current }
        | .failed => some { s with pc := s.next name }
        | .badQuery => some { s with pc := .idle }
      else none
  | .selectNew name =>
      if Answers sql.same s.rows name reply then
        match reply with
        | .rows ids => some { s with pc := .updateNew name (ids.getLastD s.machineId) }
        | .failed => some { s with pc := s.next name }
        | .badQuery => some { s with pc := .idle }
      else none
  | _ => none

/-- The answer to an `INSERT`. -/
def StatusStore.insert (sql : MachineSql) (s : StatusStore) (reply : ExecReply) (row : Row) :
    Option StatusStore :=
  match s.pc, reply with
  | .insert name status, .done =>
      if Addable sql.toCharset s.rows row ∧ (Plain name → row.name = sql.machineName name) then
        some { s with
          pc := .selectNew name
          machine := s.machine ++ [⟨row, unsignedColumn 8 status⟩] }
      else none
  | .insert name _, .failed => some { s.drop name with pc := .selectNew name }
  | .insert name _, .badQuery => some { s.drop name with pc := .idle }
  | _, _ => none

/-- `SET machine_status=` on the rows with an id. -/
def setStatuses (machine : List MachineRow) (id : Int) (value : MachineRow → Int) :
    List MachineRow :=
  machine.map fun row =>
    if row.id = id then { row with status := unsignedColumn 8 (value row) } else row

/-- The answer to an `UPDATE`. It is an error if the name of a machine is no expression. -/
def StatusStore.update (sql : MachineSql) (s : StatusStore) (reply : ExecReply) :
    Option StatusStore :=
  match s.pc, reply with
  | .update name status id, .done =>
      some { s with pc := s.next name, machine := setStatuses s.machine id fun _ => status }
  | .update name _ _, .failed => some { s.drop name with pc := s.next name }
  | .update name _ _, .badQuery => some { s.drop name with pc := .idle }
  | .updateNew name id, .done =>
      if ∀ row ∈ s.machine, row.id = id → (sql.expression name row).isSome then
        some { s with
          pc := s.next name
          machine := setStatuses s.machine id fun row => (sql.expression name row).getD 0 }
      else none
  | .updateNew name _, .failed => some { s with pc := s.next name }
  | .updateNew _ _, .badQuery => some { s with pc := .idle }
  | _, _ => none

/-- The state after an action; `none` if it is not possible. -/
def statusStoreStep (sql : MachineSql) (s : StatusStore) : StatusStoreAction → Option StatusStore
  | .setStatus name status =>
      some { s.drop name with mapMnameStatus := s.mapMnameStatus.set name status.number }
  | .touch name => some { s with mapMnameStatus := s.mapMnameStatus.touch name 0 }
  | .addRow row =>
      if Addable sql.toCharset s.rows row.toRow then
        some { s with machine := s.machine ++ [row] }
      else none
  | .beginPass =>
      match s.pc with
      | .idle =>
          some { s with
            pc :=
              match nextEntry s.mapMnameStatus none with
              | none => .idle
              | some name => .enter name }
      | _ => none
  | .enter machineId => s.enter machineId
  | .select reply => s.select sql reply
  | .insert reply row => s.insert sql reply row
  | .update reply => s.update sql reply

/-- The server has just started. -/
def StatusStore.start (machine : List MachineRow) : StatusStore := ⟨∅, machine, .idle, 0, []⟩

end Monitoring.Server
