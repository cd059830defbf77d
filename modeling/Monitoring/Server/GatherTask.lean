import Monitoring.Server.RegistryThreads

/-!
# `Monitoring.Server.GatherTask`: when `gather_task` scans the machines

`Monitoring.Server.RegistryThreads` lets a scan of MACHINE_LIST start at any time. Here
`gather_task` waits for it: until there are machines, then for second 0 of a minute, and behind the
scan up to second 59. The other threads, and the time, can go on between any two of its statements.

The `struct tm` is one static object, and the other threads fill it as well. `TaskEvent.localtime`
is such a call, for the time that the clock shows. The threads read `time(NULL)` one statement
before; where the clock goes on in between, they fill the object with an earlier second, and that is
left out here.

There are two ghosts: `started`, the machines for which `handle_gather` was started, with the
minutes, and `slept`, the arguments of the `sleep` behind a scan.
-/

set_option autoImplicit false

namespace Monitoring.Server

open Monitoring.Lib

/-- `localtime(&now)->tm_sec`, for a zone whose offset is a whole number of minutes. -/
def tmSec (now : Int) : Int := now % 60

/-- The statement that `gather_task` comes to. A `sleep` has the time before which it does not
return. -/
inductive TaskPc
  | testSize
  | napping (wake : Int)
  | time
  | convert (now : Int)
  | testSecond
  | waiting (wake : Int)
  | scan
  | timeAfter
  | convertAfter (now : Int)
  | sleep
  | sleeping (wake : Int)
deriving DecidableEq, Repr

/-- The tables and the threads, `time(NULL)`, and the time in the object of `localtime`. -/
structure GatherTask where
  threads : Threads
  clock : Int
  tmClock : Int
  pc : TaskPc
  started : List (Bytes × Int)
  slept : List Int

/-- What can happen next: the time goes on, another thread takes a step, or calls `localtime`, or
`gather_task` executes its next statement. -/
inductive TaskEvent
  | elapse (seconds : Nat)
  | localtime
  | server (a : ServerAction)
  | gather

/-- A step of the loop over MACHINE_LIST. -/
def GatherTask.scanStep (p : GatherTask) : GatherTask :=
  let t := scannerStep p.threads
  { p with
    threads := t
    pc := if t.scanner = .idle then .timeAfter else .scan
    started :=
      match p.threads.scanner with
      -- `boost::thread t(boost::bind(handle_gather, machine))`
      | .launch _ machine => p.started ++ [(machine, p.clock / 60)]
      | _ => p.started }

/-- The next statement of `gather_task`; `none` while a `sleep` goes on. -/
def gatherTaskStep (p : GatherTask) : Option GatherTask :=
  match p.pc with
  -- "Wait until there are machines to be monitored"
  | .testSize =>
      some { p with
        pc := if p.threads.tables.machineList = [] then .napping (p.clock + 1) else .time }
  | .napping wake => if wake ≤ p.clock then some { p with pc := .testSize } else none
  | .time => some { p with pc := .convert p.clock }
  | .convert now => some { p with tmClock := now, pc := .testSecond }
  | .testSecond =>
      if 0 < tmSec p.tmClock then some { p with pc := .waiting (p.clock + 1) }
      else some { p with threads := { p.threads with scanner := .look 0 }, pc := .scan }
  | .waiting wake => if wake ≤ p.clock then some { p with pc := .time } else none
  | .scan => some p.scanStep
  | .timeAfter => some { p with pc := .convertAfter p.clock }
  | .convertAfter now => some { p with tmClock := now, pc := .sleep }
  -- "Sleep the rest of the current minute"
  | .sleep =>
      some { p with
        pc := .sleeping (p.clock + (59 - tmSec p.tmClock))
        slept := p.slept ++ [59 - tmSec p.tmClock] }
  | .sleeping wake => if wake ≤ p.clock then some { p with pc := .testSize } else none

/-- The state after an event. A `localtime` of another thread is for the present clock. -/
def taskStep (p : GatherTask) : TaskEvent → Option GatherTask
  | .elapse seconds => some { p with clock := p.clock + seconds }
  | .localtime => some { p with tmClock := p.clock }
  -- the scan belongs to `gather_task`
  | .server .scan => none
  | .server a => (serverStep p.threads a).map fun t => { p with threads := t }
  | .gather => gatherTaskStep p

/-- The server has just started. -/
def GatherTask.start (windowsList linuxList : Table Int Bytes) (clock tmClock : Int) :
    GatherTask where
  threads := Threads.start windowsList linuxList
  clock := clock
  tmClock := tmClock
  pc := .testSize
  started := []
  slept := []

end Monitoring.Server
