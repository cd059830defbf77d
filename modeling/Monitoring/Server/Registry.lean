import Monitoring.Lib.Run
import Monitoring.Server.EventBlock

/-!
# `Monitoring.Server.Registry`: the tables of the server

The server knows its machines through three containers: the vector MACHINE_LIST, and the maps
MAP_MNAME_IP and BLACKLIST. `handleListen` is `handle_listen`, which registers a machine when it
calls home, and `handleGather` is `handle_gather`, which asks a registered machine for its
events. Both are whole executions here. What the network and the database do is an input:
`ListenCall` and `GatherOutcome`.

Reading through `operator[]` creates the entry, as everywhere in `std::map` (`Table.touch`).
Where `remote_endpoint()` throws inside `MAP_MNAME_IP[mName] = ...`, the language does not say
whether the entry was created before; both orders are modelled (`EndpointCall.throws`).

`handleGather` is `none` where the program has no defined behaviour (`it->second` after a failed
`find`), where it ends (`resolve` throws outside the `try`), and where the decoder does not end.
The log files are left out.
-/

set_option autoImplicit false

namespace Monitoring.Server

open Monitoring.Lib

/-- The global tables. -/
structure Tables where
  machineList : List Bytes
  mapMnameIp : Table Bytes Bytes
  mapMnameStatus : Table Bytes Int
  blacklist : Table Bytes Int
  eventsToUpload : List EVENT
  windowsList : Table Int Bytes
  linuxList : Table Int Bytes

/-- `std::find` on a list of names. -/
instance decidableNamed (m : Bytes) (names : List Bytes) : Decidable (m ∈ names) := inferInstance

/-- Nothing is registered; the program lists are what `current_prog_setup` made. -/
def Tables.empty (windowsList linuxList : Table Int Bytes) : Tables :=
  ⟨[], ∅, ∅, ∅, [], windowsList, linuxList⟩

/-! ### `handle_listen` -/

/-- `read_some`: the connection was closed, another error, or a message of at most 1024
bytes. -/
inductive ReadResult
  | eof
  | error
  | message (data : Bytes)

/-- A call of `remote_endpoint()`. When it throws on the right of `MAP_MNAME_IP[mName] = ...`,
the entry may have been created. -/
inductive EndpointCall
  | returns
  | throws (keyMade : Bool)
deriving DecidableEq, Repr

/-- What `db_machine_insert` does to the tables: it evaluates `MAP_MNAME_STATUS[machine]` when
the machine is not in the database, and it may throw. -/
structure DbInsert where
  readsStatus : Bool
  throws : Bool
deriving DecidableEq, Repr

/-- The surroundings of one execution of `handle_listen`. `endpoint i` is the outcome of the
`i`-th call of `remote_endpoint()`, and `sender` the address it returns. -/
structure ListenCall where
  read : ReadResult
  sender : Bytes
  endpoint : Nat → EndpointCall
  db : DbInsert
  sendThrows : Bool
  closeThrows : Bool

/-- The tables after an execution, whether it ran without an exception, and the text handed to
the socket. -/
structure Handled where
  tables : Tables
  completed : Bool
  reply : Option Bytes := none

/-- "Client already exists on the list, so update its BLACKLIST status". -/
def Tables.unlist (s : Tables) (mName : Bytes) : Tables :=
  -- the comparison itself creates a missing entry
  let s := { s with blacklist := s.blacklist.touch mName 0 }
  if s.blacklist.read mName 0 = 1 then { s with blacklist := s.blacklist.set mName 0 } else s

/-- `MAP_MNAME_IP[mName] = sock->remote_endpoint().address().to_string()`. -/
def Tables.storeAddress (s : Tables) (mName sender : Bytes) : EndpointCall → Handled
  | .returns => ⟨{ s with mapMnameIp := s.mapMnameIp.set mName sender }, true, none⟩
  -- `operator[]` came first, and the address it was to get never arrived
  | .throws true => ⟨{ s with mapMnameIp := s.mapMnameIp.touch mName [] }, false, none⟩
  | .throws false => ⟨s, false, none⟩

/-- The block for a machine that is on the list. -/
def Tables.refresh (s : Tables) (mName sender : Bytes) (call : EndpointCall) : Handled :=
  (s.unlist mName).storeAddress mName sender call

/-- `db_machine_insert`, as far as the tables go. -/
def Tables.dbMachineInsert (s : Tables) (mName : Bytes) (db : DbInsert) : Handled :=
  ⟨if db.readsStatus then { s with mapMnameStatus := s.mapMnameStatus.touch mName 0 } else s,
    !db.throws, none⟩

/-- `mtx.lock()` up to `mtx.unlock()`. -/
def Tables.pushMachine (s : Tables) (mName : Bytes) : Tables :=
  if mName.isEmpty then s else { s with machineList := s.machineList ++ [mName] }

/-- The two `insert` calls. -/
def Tables.insertMachine (s : Tables) (mName sender : Bytes) : Tables :=
  { s with
    mapMnameIp := s.mapMnameIp.insertNew mName sender
    blacklist := s.blacklist.insertNew mName 0 }

/-- The block for a machine that is not on the list. -/
def Tables.register (s : Tables) (mName sender : Bytes) (call : EndpointCall)
    (db : DbInsert) : Handled :=
  -- whatever follows, the name is on the list
  let s := s.pushMachine mName
  match call with
  | .returns => (s.insertMachine mName sender).dbMachineInsert mName db
  | .throws _ => ⟨s, false, none⟩

/-- The loop over a program list: `x`, the text so far, and the list, which `operator[]` may
extend. -/
structure JoinState where
  x : Int
  data : Bytes
  list : Table Int Bytes

/-- One pass of `for(int x = 0; x < list.size(); ++x)`. -/
def joinPass (s : JoinState) : JoinState :=
  -- a missing key becomes an entry, so the bound of the loop can move away
  let name := s.list.read s.x []
  { x := s.x + 1
    data := if 0 < s.x then s.data ++ [ch ','] ++ name else s.data ++ name
    list := s.list.touch s.x [] }

/-- The text sent for a program list, and the list afterwards, for at most `fuel` passes. -/
def joinList (fuel : Nat) (list : Table Int Bytes) : Option JoinState :=
  whileFuel (fun s => decide (s.x < s.list.entries.length)) joinPass fuel ⟨0, [], list⟩

/-- "Send program list". -/
def Tables.sendList (s : Tables) (os : Byte) (throws : Bool) (fuel : Nat) : Option Handled :=
  if os = ch '1' then
    (joinList fuel s.windowsList).map fun j =>
      ⟨{ s with windowsList := j.list }, !throws, some (cstr j.data)⟩
  else if os = ch '2' then
    (joinList fuel s.linuxList).map fun j =>
      ⟨{ s with linuxList := j.list }, !throws, some (cstr j.data)⟩
  else some ⟨s, true, none⟩

/-- The end of the `try` block: `cancel` and `close`. -/
def Handled.close (h : Handled) (throws : Bool) : Handled :=
  { h with completed := h.completed && !throws }

/-- "Client is calling home, add it to the list of machines to be monitored if not already on
it". A known machine has been refreshed once before. -/
def Tables.callHome (s : Tables) (call : ListenCall) (mName : Bytes) : Handled :=
  -- a listed machine has been here before: this is the second `remote_endpoint()`
  if mName ∈ s.machineList then s.refresh mName call.sender (call.endpoint 1)
  else s.register mName call.sender (call.endpoint 0) call.db

/-- The part of `handle_listen` after the first test: the new or known machine, its program list,
and the end. -/
def handleFlag (call : ListenCall) (flag os : Byte) (mName : Bytes) (fuel : Nat) (s : Tables) :
    Option Handled :=
  if flag = ch '1' then
    let h := s.callHome call mName
    if h.completed then
      (h.tables.sendList os call.sendThrows fuel).map fun h =>
        if h.completed then h.close call.closeThrows else h
    else some h
  else some (Handled.close ⟨s, true, none⟩ call.closeThrows)

/-- `handle_listen` on a message. The flag, the operating system and the name are its bytes 0, 1
and 2 to the first NUL. -/
def handleMessage (call : ListenCall) (data : Bytes) (fuel : Nat) (s : Tables) :
    Option Handled :=
  let flag := data.getD 0 0
  let os := data.getD 1 0
  -- `substr(2)` throws when the name starts behind the end
  if (cstr data).length < 2 then some ⟨s, false, none⟩
  else
    let mName := (cstr data).drop 2
    if mName ∈ s.machineList then
      let h := s.refresh mName call.sender (call.endpoint 0)
      if h.completed then handleFlag call flag os mName fuel h.tables else some h
    else handleFlag call flag os mName fuel s

/-- `handle_listen`, for at most `fuel` passes of its loop. -/
def handleListen (call : ListenCall) (fuel : Nat) (s : Tables) : Option Handled :=
  match call.read with
  | .eof => some ⟨s, true, none⟩
  | .error => some ⟨s, false, none⟩
  | .message data => handleMessage call data fuel s

/-! ### `handle_gather` -/

/-- How the exchange with a machine ends. A response comes with the surroundings of the
decoder. -/
inductive GatherOutcome
  | resolveThrows
  | timedOut
  | connectionRefused
  | hostUnreachable
  | otherError
  | response (rBuffer : Bytes) (env : ParseEnv) (outside : Int → Byte)

/-- "BLACKLIST[machine] = 1; MAP_MNAME_STATUS[machine] = 3". -/
def Tables.offline (s : Tables) (machine : Bytes) : Tables :=
  { s with
    blacklist := s.blacklist.set machine 1
    mapMnameStatus := s.mapMnameStatus.set machine 3 }

/-- The status a response stands for: logged out, or logged in. The two branches of the `find`
amount to an assignment. -/
def Tables.noteResponse (s : Tables) (machine rBuffer : Bytes) : Tables :=
  if rBuffer.head? = some (ch '8') then
    { s with mapMnameStatus := s.mapMnameStatus.set machine 2 }
  else if rBuffer.head? = some (ch '2') then
    { s with mapMnameStatus := s.mapMnameStatus.set machine 1 }
  else s

/-- The rows of a response. -/
def Tables.decode (s : Tables) (machine rBuffer : Bytes) (env : ParseEnv)
    (outside : Int → Byte) (fuel : Nat) : Option Tables :=
  (decodeResponse env outside rBuffer machine fuel ⟨s.eventsToUpload, s.mapMnameStatus, 0⟩).map
    fun p => { s with eventsToUpload := p.eventsToUpload, mapMnameStatus := p.mapMnameStatus }

/-- The tables after the exchange. -/
def Tables.finishGather (s : Tables) (machine : Bytes) (fuel : Nat) :
    GatherOutcome → Option Tables
  -- outside the `try`, so the process ends
  | .resolveThrows => none
  | .timedOut => some (s.offline machine)
  | .connectionRefused => some (s.offline machine)
  | .hostUnreachable => some (s.offline machine)
  -- logged, and the machine keeps its status
  | .otherError => some s
  | .response rBuffer env outside =>
      (s.noteResponse machine rBuffer).decode machine rBuffer env outside fuel

/-- `handle_gather`. -/
def handleGather (machine : Bytes) (outcome : GatherOutcome) (fuel : Nat) (s : Tables) :
    Option Tables :=
  let s := { s with blacklist := s.blacklist.touch machine 0 }
  if 0 < s.blacklist.read machine 0 then some s
  else
    -- `it->second` without a test against `end()`
    match s.mapMnameIp.lookup machine with
    | none => none
    | some _ => s.finishGather machine fuel outcome

/-! ### Whole executions, one after the other -/

/-- An execution of `handle_listen`, `gather_task`'s look at `BLACKLIST[MACHINE_LIST[i]]`, or an
execution of `handle_gather` on a listed machine. -/
inductive Execution
  | listen (call : ListenCall) (fuel : Nat)
  | scan (machine : Bytes)
  | gather (machine : Bytes) (outcome : GatherOutcome) (fuel : Nat)

/-- The tables after an execution. -/
def execute (s : Tables) : Execution → Option Tables
  | .listen call fuel => (handleListen call fuel s).map Handled.tables
  | .scan machine =>
      if machine ∈ s.machineList then
        some { s with blacklist := s.blacklist.touch machine 0 }
      else none
  | .gather machine outcome fuel =>
      if machine ∈ s.machineList then handleGather machine outcome fuel s else none

end Monitoring.Server
