import Monitoring.Client.Gather
import Monitoring.Client.Scripts

/-!
# `Monitoring.Client.Launches`: `gather_data` and the scripts that it runs

Every cycle of `gather_data` begins with a call of `execute_script`. `Monitoring.Client.Gather`
passes over it in one step. Here it is a sequence of steps: the call reads the clock, looks at one
script of the map after the other, and returns. `system` waits for the script, so any time can go by
between two of these steps.

The `struct tm` is one static object, and other threads fill it as well. `LaunchEvent.localtime` is
such a call, for the time that the clock shows, or for one ahead: the warnings of the time limit ask
for a time that is up to 15 minutes later. That a thread has read the clock in an earlier second
than it calls `localtime` is left out here.

There are three ghosts: `seen`, the clock at the start of the last call and the times of its tests,
`entered`, the clock at the last start of the polling loop, and `launched`, the scripts that were
run with the minutes they were run for.
-/

set_option autoImplicit false

namespace Monitoring.Client

open Monitoring.Lib

/-- The client, the time in the object of `localtime`, and the scripts that a running call of
`execute_script` has not looked at yet. -/
structure LaunchState where
  gather : GatherState
  tmClock : Int
  pending : Option (List Bytes)
  seen : List Int
  entered : Int
  launched : List (Bytes × Int)
deriving DecidableEq, Repr

/-- What can happen next: something of `clientStep`, or a `localtime` of another thread for the time
that is so many minutes ahead. -/
inductive LaunchEvent
  | client (e : ClientEvent)
  | localtime (minutes : Nat)

/-- The event is the statement in front of the polling loop, "t = time(NULL)". -/
def GatherState.entersLoop (s : GatherState) : ClientEvent → Bool
  | .gather _ => decide (s.pc = .start)
  | _ => false

/-- The next step of `execute_script`; `none` where an `at` raises. -/
def LaunchState.execute (zone : Int → Int) (scripts2 : Table Bytes (List Bytes))
    (p : LaunchState) : Option LaunchState :=
  match p.pending with
  | none =>
      some { p with
        gather := { p.gather with tmSec := tmSec p.gather.clock }
        tmClock := p.gather.clock
        pending := some (scriptCommands scripts2)
        seen := [p.gather.clock] }
  | some [] => some { p with gather := { p.gather with pc := .login }, pending := none }
  | some (cmd :: rest) =>
      -- the object has the time of the last `localtime`, whoever called it
      (commandDue scripts2 (localTime zone p.tmClock) cmd).map fun due =>
        { p with
          pending := some rest
          seen := p.seen ++ [p.tmClock]
          launched := if due then p.launched ++ [(cmd, p.tmClock / 60)] else p.launched }

/-- The state after an event of the client that leads it to `t`. -/
def LaunchState.after (p : LaunchState) (e : ClientEvent) (t : GatherState) : LaunchState :=
  { p with
    gather := t
    tmClock := if p.gather.callsLocaltime e then p.gather.clock else p.tmClock
    entered := if p.gather.entersLoop e then p.gather.clock else p.entered }

/-- The state after an event. A `localtime` of another thread counts from the present clock. -/
def launchStep (zone : Int → Int) (scripts2 : Table Bytes (List Bytes)) (p : LaunchState) :
    LaunchEvent → Option LaunchState
  | .localtime minutes =>
      some { p with
        gather := { p.gather with tmSec := tmSec p.gather.clock }
        tmClock := p.gather.clock + 60 * minutes }
  | .client (.gather input) =>
      if p.gather.pc = .script then p.execute zone scripts2
      else (gatherStep input p.gather).map (p.after (.gather input))
  | .client e => (clientStep p.gather e).map (p.after e)

/-- The client has just started. -/
def LaunchState.begin (clock eventSize programCount : Int) : LaunchState where
  gather := GatherState.begin clock eventSize programCount
  tmClock := 0
  pending := none
  seen := []
  entered := 0
  launched := []

end Monitoring.Client
