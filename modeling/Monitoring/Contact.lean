import Monitoring.Client.CallHome
import Monitoring.Server.Registry

/-!
# `Monitoring.Contact`: a client that the server has lost calls home

The server asks a machine as long as it is on MACHINE_LIST and not on the blacklist. A machine that
does not answer is blacklisted, and a server that has been restarted knows no machine. Nothing of
this comes to the client. But `call_home_task` tests once a second whether the last contact with a
server is more than CALL_HOME minutes ago, and then calls home. This is that loop, next to the
tables of the server and to all that may happen to them.

`listen_thread` notes a contact at the end of every connection. A call home that does not come to
the server, or whose answer is empty, ends in an exception. The client goes on behind
`write_program_file`, which is the matter of `Monitoring.Client.ProgramList`. The answer is read
into a buffer of 12 bytes; that a full read stores a NUL behind it is taken as harmless.

`passStart` and `lostAt` are ghosts: when the running pass of `call_home_task` has read the clock,
and when the machine was lost for the last time.
-/

set_option autoImplicit false

namespace Monitoring

open Monitoring.Lib Monitoring.Client Monitoring.Server

/-- Where `call_home_task` is: about to read the clock, to test what it has read, in the call, about
to go on with the answer, or in its `mSleep(1)`. -/
inductive HomePc
  | time
  | test (currentTime : Int)
  | calling
  | answered (output : Bytes)
  | sleeping (wake : Int)

/-- A client, the tables of the server, and the ghosts. -/
structure Contact where
  clock : Int
  tables : Tables
  lastServerCommunication : Int
  neverContactedServer : Bool
  pc : HomePc
  passStart : Int
  lostAt : Int

/-- The time goes on; `call_home_task` executes its next statement; the server handles the call, and
the client reads the answer to its end; the call fails; `listen_thread` ends a connection; the
server does something else; or it is restarted. -/
inductive ContactAction
  | elapse (seconds : Nat)
  | home
  | answer (call : ListenCall) (fuel : Nat) (file : Bytes) (chunks : List Bytes)
  | fails
  | contacted
  | server (e : Execution)
  | restart (windowsList linuxList : Table Int Bytes)

/-- The server asks the machine. -/
def Monitored (tables : Tables) (machine : Bytes) : Prop :=
  machine ∈ tables.machineList ∧ tables.blacklist.read machine 0 = 0

instance (tables : Tables) (machine : Bytes) : Decidable (Monitored tables machine) :=
  inferInstanceAs (Decidable (_ ∧ _))

/-- "flag + os + std::string(mname)". -/
def homeMessage (machine : Bytes) : Bytes := ch '1' :: ch '2' :: machine

/-- The tables come to another state. -/
def Contact.setTables (s : Contact) (machine : Bytes) (tables : Tables) : Contact :=
  { s with
    tables := tables
    lostAt :=
      if Monitored s.tables machine ∧ ¬ Monitored tables machine then s.clock else s.lostAt }

/-- The next statement of `call_home_task`; `none` while it waits. -/
def Contact.home (s : Contact) (callHome : Int) : Option Contact :=
  match s.pc with
  | .time => some { s with pc := .test s.clock, passStart := s.clock }
  | .test currentTime =>
      some { s with
        pc :=
          if currentTime - s.lastServerCommunication > callHome * 60 ∨ s.neverContactedServer then
            .calling
          else .sleeping (s.clock + 1) }
  | .calling => none
  | .answered output =>
      match receivedList output with
      -- `output.substr(1)` has thrown
      | none => some { s with pc := .sleeping (s.clock + 1) }
      | some _ =>
          some { s with
            lastServerCommunication := s.clock
            neverContactedServer := false
            pc := .sleeping (s.clock + 1) }
  | .sleeping wake => if wake ≤ s.clock then some { s with pc := .time } else none

/-- The call home, as the server handles it. -/
def Contact.answer (s : Contact) (machine : Bytes) (call : ListenCall) (fuel : Nat) (file : Bytes)
    (chunks : List Bytes) : Option Contact :=
  match s.pc with
  | .calling =>
      (handleListen { call with read := .message (homeMessage machine) } fuel s.tables).bind
        fun h =>
          if chunks.flatten = h.reply.getD [] ∧ ∀ chunk ∈ chunks, chunk ≠ [] then
            some { s.setTables machine h.tables with
              pc := .answered (callHomeOutput file chunks).text }
          else none
  | _ => none

/-- The state after an action; `none` if it is not possible. -/
def contactStep (machine : Bytes) (callHome : Int) (s : Contact) : ContactAction → Option Contact
  | .elapse seconds => some { s with clock := s.clock + seconds }
  | .home => s.home callHome
  | .answer call fuel file chunks => s.answer machine call fuel file chunks
  | .fails =>
      match s.pc with
      | .calling => some { s with pc := .sleeping (s.clock + 1) }
      | _ => none
  | .contacted => some { s with lastServerCommunication := s.clock }
  | .server e => (execute s.tables e).map (s.setTables machine)
  | .restart windowsList linuxList =>
      some (s.setTables machine (Tables.empty windowsList linuxList))

/-- The client has just started, next to a server with these tables. -/
def Contact.start (clock : Int) (tables : Tables) : Contact :=
  ⟨clock, tables, 0, true, .time, clock, clock⟩

end Monitoring
