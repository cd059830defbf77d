import Monitoring.Client.Gather
import Monitoring.Client.PushedList
import Monitoring.Client.RunningProc

/-!
# `Monitoring.Client.Monitor`: `gather_data` and the program list

`Monitoring.Client.Gather` leaves open how many programs there are and what a poll finds, and
`Monitoring.Client.ProgramList` has the list. Here they are one client. A cycle reads the masterlist
file if PROGRAM_COUNT is 0, and each poll looks the entries of its block up in what `ps` prints. In
between, `call_home_task` returns with a list, `listen_thread` takes one that is pushed, or somebody
changes the file.

A call that waits for `pf_mutex` forever is not a step. A poll sees PROGRAM_LIST as it is between
two calls of `set_program_list`.

`polls` and `frames` are ghosts: the polls since the array was allocated, and the frames that were
built, each with the polls until then.
-/

set_option autoImplicit false

namespace Monitoring.Client

open Monitoring.Lib

/-- A poll of a block: PROGRAM_LIST, and the processes of the user who is logged in locally. -/
structure BlockPoll where
  block : Nat
  programList : List Bytes
  processes : Bytes
deriving DecidableEq, Repr

/-- "unsigned int tally = tally_program_count(processes, j+1)". -/
def BlockPoll.tally (p : BlockPoll) : UInt32 :=
  ⟨tallyProgramCount p.programList p.processes (p.block + 1)⟩

/-- The client, its list, and the ghosts. -/
structure Monitor where
  gather : GatherState
  programs : ProgramState
  polls : List BlockPoll
  frames : List (BuiltFrame × List BlockPoll)

/-- What can happen. A statement of `gather_data` learns the users `logged_in` finds, whether the
masterlist can be read, and what `ps` prints, with the memory its output is read into. -/
inductive MonitorEvent
  | elapse (seconds : Nat)
  | gather (users : List User) (canRead : Bool) (memory output : Bytes)
  | request (outcomes : Nat → WriteOutcome) (outside : Nat → UInt32)
  | callHome (list : Bytes) (canWrite canRead : Bool)
  | push (message : Bytes) (access : FileAccess)
  | edit (file : Option Bytes)

/-- The poll that the next statement of `gather_data` makes, if it makes one. -/
def Monitor.nextPoll (s : Monitor) (memory output : Bytes) : Option BlockPoll :=
  match s.gather.pc with
  | .poll _ j =>
      if j < s.gather.blocks.length then
        let user := getCurrentLocalUser s.gather.currentUsers
        some ⟨j, s.programs.programList, (linuxGetRunningProc memory user output).text⟩
      else none
  | _ => none

/-- The list when the next statement of `gather_data` is executed: a cycle begins with a call of
`set_program_list`, if there are no programs. -/
def Monitor.readPrograms (s : Monitor) (canRead : Bool) : Option ProgramState :=
  if s.gather.pc = .setup then gatherSetProgramList canRead s.programs else some s.programs

/-- The client takes a step, with this list and these polls behind it. -/
def Monitor.go (s : Monitor) (e : ClientEvent) (programs : ProgramState) (polls : List BlockPoll) :
    Option Monitor :=
  (clientStep s.gather e).map fun gather =>
    { gather := gather
      programs := programs
      polls := polls
      frames := s.frames ++ (gather.built.drop s.gather.built.length).map (·, s.polls) }

/-- The next statement of `gather_data`. -/
def Monitor.gatherData (s : Monitor) (users : List User) (canRead : Bool) (memory output : Bytes) :
    Option Monitor :=
  (s.readPrograms canRead).bind fun programs =>
    let poll := s.nextPoll memory output
    let tally := (poll.map BlockPoll.tally).getD 0
    s.go (.gather ⟨users, programs.programCount, tally⟩) programs
      (if s.gather.pc = .setup then [] else s.polls ++ poll.toList)

/-- The state after an event; `none` if it is not possible. -/
def monitorStep (s : Monitor) : MonitorEvent → Option Monitor
  | .elapse seconds => s.go (.elapse seconds) s.programs s.polls
  | .gather users canRead memory output => s.gatherData users canRead memory output
  | .request outcomes outside => s.go (.request outcomes outside) s.programs s.polls
  | .callHome list canWrite canRead =>
      (writeProgramFile list canWrite canRead s.programs).bind fun programs =>
        s.go (.callHome programs.programCount) programs s.polls
  | .push message access =>
      some { s with programs := Version.linux.listenProgramList message access s.programs }
  | .edit file => some { s with programs := { s.programs with file := file } }

/-- The client has just started, with this masterlist file. -/
def Monitor.start (clock eventSize : Int) (file : Option Bytes) : Monitor :=
  ⟨GatherState.begin clock eventSize 0, ProgramState.start file, [], []⟩

end Monitoring.Client
