import Monitoring.Server.Registry

/-!
# `Monitoring.Server.RegistryThreads`: the server threads, update by update

`listen_task` joins each `handle_listen` before the next `accept`, so there is one listener at a
time. Beside it `gather_task` walks over MACHINE_LIST and starts a thread `handle_gather` for
each machine that is not blacklisted, without joining it. Each action here but `finish` is one
update or one test of a table, so everything the threads can do between two of them is a run
(`Monitoring.Lib.Run`). `finish`, the end of an exchange, notes the status of the machine, decodes
the response and pushes its rows, all in one step.

`ListenPc` and `ScanPc` are the places the listener and `gather_task` have reached. The listener
has the two nearly equal blocks for a known machine, told apart by `again`. `stranded` is a ghost:
the machines on the list whose registration an exception cut short, and that have not got an
address since.

The waiting of `gather_task` for the next minute is left out: its scan may start at any time.
-/

set_option autoImplicit false

namespace Monitoring.Server

open Monitoring.Lib

/-- A message of `handle_listen` after `substr(2)`. -/
structure Message where
  flag : Byte
  os : Byte
  mName : Bytes
deriving DecidableEq, Repr

/-- Where the listener is. -/
inductive ListenPc
  | idle
  | find (again : Bool) (msg : Message)
  | testListed (again : Bool) (msg : Message)
  | unlist (again : Bool) (msg : Message)
  | storeAddress (again : Bool) (msg : Message)
  | testFlag (msg : Message)
  | push (msg : Message)
  | insertIp (msg : Message)
  | insertBlacklist (msg : Message)
  | dbInsert (msg : Message)
  | sendList (msg : Message)
  | close
deriving DecidableEq, Repr

/-- Where `gather_task` is: between two scans, at a place of MACHINE_LIST, or about to start a
thread for the machine it copied from there. -/
inductive ScanPc
  | idle
  | look (i : Nat)
  | launch (i : Nat) (machine : Bytes)
deriving DecidableEq, Repr

/-- The tables and the threads. `launched` are the `handle_gather` threads that have not run yet,
`asking` those that wait for their machine. -/
structure Threads where
  tables : Tables
  listener : ListenPc
  scanner : ScanPc
  launched : List Bytes
  asking : List Bytes
  stranded : List Bytes

/-- What the surroundings decide in a step of the listener. -/
structure ListenChoice where
  sender : Bytes
  endpoint : EndpointCall
  db : DbInsert
  throws : Bool
  fuel : Nat

/-- The actions. -/
inductive ServerAction
  | accept (data : Bytes)
  | listen (choice : ListenChoice)
  | scan
  | begin (machine : Bytes)
  | finish (machine : Bytes) (outcome : GatherOutcome) (fuel : Nat)

/-- After the block for a known machine: the flag, or the program list. -/
def afterAddress (again : Bool) (msg : Message) : ListenPc :=
  if again then .sendList msg else .testFlag msg

/-- `MAP_MNAME_IP[mName] = ...` in the block for a known machine. -/
def Threads.storeAddress (s : Threads) (again : Bool) (msg : Message) (c : ListenChoice) :
    Threads :=
  match c.endpoint with
  | .returns =>
      { s with
        tables := { s.tables with mapMnameIp := s.tables.mapMnameIp.set msg.mName c.sender }
        -- an address ends the stranding
        listener := afterAddress again msg
        stranded := s.stranded.filter (· ≠ msg.mName) }
  | .throws true =>
      { s with
        tables := { s.tables with mapMnameIp := s.tables.mapMnameIp.touch msg.mName [] }
        listener := .idle
        stranded := s.stranded.filter (· ≠ msg.mName) }
  | .throws false => { s with listener := .idle }

/-- `MAP_MNAME_IP.insert(...)` in the block for a new machine. When `remote_endpoint()` throws,
the rest of the handler is skipped. -/
def Threads.insertIp (s : Threads) (msg : Message) (c : ListenChoice) : Threads :=
  match c.endpoint with
  | .returns =>
      { s with
        tables := { s.tables with
          mapMnameIp := s.tables.mapMnameIp.insertNew msg.mName c.sender }
        listener := .insertBlacklist msg }
  | .throws _ =>
      { s with
        listener := .idle
        stranded := if msg.mName.isEmpty then s.stranded else msg.mName :: s.stranded }

/-- The next operation of the listener; `none` while there is no message, and when the loop over a
program list does not end. -/
def listenerStep (c : ListenChoice) (s : Threads) : Option Threads :=
  match s.listener with
  | .idle => none
  | .find again msg =>
      -- not listed: in the first block nothing happens, in the second one the machine is new
      some { s with listener :=
        if msg.mName ∈ s.tables.machineList then .testListed again msg
        else if again then .push msg else .testFlag msg }
  | .testListed again msg =>
      let t := { s.tables with blacklist := s.tables.blacklist.touch msg.mName 0 }
      some { s with
        tables := t
        listener :=
          if t.blacklist.read msg.mName 0 = 1 then .unlist again msg
          else .storeAddress again msg }
  | .unlist again msg =>
      some { s with
        tables := { s.tables with blacklist := s.tables.blacklist.set msg.mName 0 }
        listener := .storeAddress again msg }
  | .storeAddress again msg => some (s.storeAddress again msg c)
  | .testFlag msg =>
      some { s with listener := if msg.flag = ch '1' then .find true msg else .close }
  | .push msg =>
      some { s with tables := s.tables.pushMachine msg.mName, listener := .insertIp msg }
  | .insertIp msg => some (s.insertIp msg c)
  | .insertBlacklist msg =>
      some { s with
        tables := { s.tables with blacklist := s.tables.blacklist.insertNew msg.mName 0 }
        listener := .dbInsert msg }
  | .dbInsert msg =>
      let h := s.tables.dbMachineInsert msg.mName c.db
      some { s with
        tables := h.tables
        listener := if h.completed then .sendList msg else .idle }
  | .sendList msg =>
      (s.tables.sendList msg.os c.throws c.fuel).map fun h =>
        { s with tables := h.tables, listener := if h.completed then .close else .idle }
  | .close => some { s with listener := .idle }

/-- The next operation of `gather_task`. -/
def scannerStep (s : Threads) : Threads :=
  match s.scanner with
  | .idle => { s with scanner := .look 0 }
  | .look i =>
      match s.tables.machineList[i]? with
      -- past the end: the scan is over
      | none => { s with scanner := .idle }
      | some machine =>
          let t := { s.tables with blacklist := s.tables.blacklist.touch machine 0 }
          { s with
            tables := t
            scanner :=
              if t.blacklist.read machine 0 = 0 ∧ machine ≠ [] then .launch i machine
              else .look (i + 1) }
  | .launch i machine =>
      { s with scanner := .look (i + 1), launched := s.launched ++ [machine] }

/-- The first half of `handle_gather`. There is no next state where it dereferences `end()`. -/
def beginGather (s : Threads) (machine : Bytes) : Option Threads :=
  -- the thread has run, whether or not it goes on to ask
  let t := { s.tables with blacklist := s.tables.blacklist.touch machine 0 }
  let s := { s with tables := t, launched := s.launched.erase machine }
  if 0 < t.blacklist.read machine 0 then some s
  else
    -- `it->second` without a test against `end()`
    match t.mapMnameIp.lookup machine with
    | none => none
    | some _ => some { s with asking := s.asking ++ [machine] }

/-- An action of one of the threads. Messages too short for `substr(2)`, and failing reads, have
no effect. -/
def serverStep (s : Threads) : ServerAction → Option Threads
  | .accept data =>
      -- `listen_task` has joined the listener before
      if s.listener = .idle ∧ 2 ≤ (cstr data).length then
        let msg : Message := ⟨data.getD 0 0, data.getD 1 0, (cstr data).drop 2⟩
        some { s with listener := .find false msg }
      else none
  | .listen choice => listenerStep choice s
  | .scan => some (scannerStep s)
  | .begin machine => if machine ∈ s.launched then beginGather s machine else none
  | .finish machine outcome fuel =>
      if machine ∈ s.asking then
        (s.tables.finishGather machine fuel outcome).map fun t =>
          { s with tables := t, asking := s.asking.erase machine }
      else none

/-- Before anything happened. -/
def Threads.start (windowsList linuxList : Table Int Bytes) : Threads :=
  ⟨Tables.empty windowsList linuxList, .idle, .idle, [], [], []⟩

end Monitoring.Server
