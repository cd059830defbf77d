import Monitoring.Threadpool.Core

/-!
# `Monitoring.Server.RunServer`: the main thread of the server

`run_server` constructs a pool of four threads, schedules the four tasks, and sets IS_RUNNING. At
the end of the block the pool `p` is destroyed, which is a `shutdown`; the main thread is the only
one that uses the pool. Behind the block it sleeps for as long as IS_RUNNING is set.

A step of the main thread is a call of the pool, a step inside of the destructor, or a test of
IS_RUNNING, and the threads of a pool take their steps in between. The core of a pool lives until
its last worker is gone, so the pools that were left are still there. Left out is the wait for a
full minute before the loop.
-/

set_option autoImplicit false

namespace Monitoring.Server

open Monitoring.Threadpool

/-- The tasks. -/
inductive ServerTask
  | gatherTask
  | listenTask
  | uploadTask
  | updateMstatus
deriving DecidableEq, Repr

/-- The tasks that are scheduled, in this order. -/
def serverTasks : List ServerTask := [.gatherTask, .listenTask, .uploadTask, .updateMstatus]

/-- Where `run_server` is: about to test IS_RUNNING, to construct the pool, to schedule the tasks
that are left and then set IS_RUNNING, to destroy the pool; in its destructor; or in `sleep`. -/
inductive RunServerPc
  | test
  | construct
  | schedule (tasks : List ServerTask)
  | destroy
  | shutdown
  | sleep
deriving DecidableEq, Repr

/-- The main thread and its pools, the newest one first. -/
structure RunServer where
  pc : RunServerPc
  isRunning : Bool
  pools : List (Pool ServerTask)
deriving DecidableEq, Repr

/-- The start of the loop. -/
def RunServer.start : RunServer := ⟨.test, false, []⟩

/-- A step of the main thread, with how many of the threads can be created and which worker is
woken, or of the threads of the `k`-th pool. -/
inductive RunServerAction
  | main (created : Nat) (woken : Option Nat)
  | threads (k : Nat) (act : PoolAction ServerTask)
deriving DecidableEq, Repr

/-- The next step of `run_server`. -/
def RunServer.mainStep (s : RunServer) (created : Nat) (woken : Option Nat) : Option RunServer :=
  match s.pc, s.pools with
  | .test, _ => some { s with pc := if s.isRunning then .sleep else .construct }
  | .construct, pools =>
      -- `static_size` resizes the new pool
      ((Pool.start ServerTask 1).resize 4 created).map fun p =>
        { s with pc := .schedule serverTasks, pools := p :: pools }
  | .schedule (task :: tasks), p :: pools =>
      (p.schedule task woken).map fun p => { s with pc := .schedule tasks, pools := p :: pools }
  | .schedule [], _ => some { s with pc := .destroy, isRunning := true }
  | .destroy, p :: pools =>
      (p.call 0 .shutdown).map fun p => { s with pc := .shutdown, pools := p :: pools }
  | .shutdown, p :: _ => if p.callers[0]? = some .outside then some { s with pc := .test } else none
  | .sleep, _ => some { s with pc := .test }
  | _, [] => none

/-- The state after an action; `none` if it is not possible. -/
def runServerStep (s : RunServer) : RunServerAction → Option RunServer
  | .main created woken => s.mainStep created woken
  | .threads k act =>
      if act.inner then
        (s.pools[k]?).bind fun p =>
          (poolStep p act).map fun p => { s with pools := s.pools.set k p }
      else none

end Monitoring.Server
