import Monitoring.Lib.Run

/-!
# `Monitoring.Threadpool.Core`: the thread pool that runs the tasks

The server and the client run their tasks in a `boost::threadpool::pool`: tasks in the order in
which they are scheduled, a number of worker threads that stays the same, and a destructor that
waits for all tasks. This is its `pool_core`.

All members are protected by the mutex `m_monitor`, so a step of a thread is what it does between
taking the mutex and giving it back, by the end of its block or in a wait for a condition. Workers
wait for `m_task_or_terminate_workers_event`, and callers of `wait` and `shutdown` for
`m_worker_idle_or_terminated_event`. `WorkerPc` and `CallerPc` are the places between such steps. A
thread that is woken is not running yet: it has to take the mutex again, and others may be faster.
`notify_one` wakes any one of the threads that wait. A wait may also end by itself.

A task runs outside of the mutex, for any time. `create_and_attach` may fail, so the number of
threads that a `resize` creates is an input.

`scheduled`, `fetched`, `finished` and `dropped` are ghosts: the tasks that `push` got, that were
taken by a worker, whose call is over, and that `clear` removed. Left out are `wait` with a time,
the schedulers with another order, and the shutdown policies that do not wait.
-/

set_option autoImplicit false

namespace Monitoring.Threadpool

open Monitoring.Lib

/-- The place of a worker: `execute_task` is about to take the mutex, is in its wait, or has been
woken there; the task runs; `execute_task` has returned false, or the task has thrown, and the pool
does not know yet; the thread is at its end. -/
inductive WorkerPc (τ : Type)
  | fetch
  | waiting
  | notified
  | running (task : τ)
  | leaving
  | dying
  | ended
deriving DecidableEq, Repr

/-- The calls that wait. `shutdown` waits for all tasks, and goes on with
`terminate_all_workers`. -/
inductive WaitCall
  | wait (threshold : Nat)
  | shutdown
deriving DecidableEq, Repr

/-- The `task_threshold` of the call. -/
def WaitCall.threshold : WaitCall → Nat
  | .wait threshold => threshold
  | .shutdown => 0

/-- The place of a thread that uses the pool: outside; about to test the condition of `wait`, or in
the wait of this loop; about to enter `terminate_all_workers`, about to test the condition there, or
in the wait of that loop. -/
inductive CallerPc
  | outside
  | test (call : WaitCall)
  | blocked (call : WaitCall)
  | terminate
  | terminateTest
  | terminateBlocked
deriving DecidableEq, Repr

/-- The members of the pool, the places of its workers and of the threads that use it, and the
ghosts. -/
structure Pool (τ : Type) where
  workerCount : Nat
  targetWorkerCount : Nat
  activeWorkerCount : Nat
  scheduler : List τ
  terminateAllWorkers : Bool
  terminatedWorkers : List Nat
  workers : List (WorkerPc τ)
  callers : List CallerPc
  scheduled : List τ
  fetched : List τ
  finished : List τ
  dropped : List τ
deriving DecidableEq, Repr

/-- A pool that has just been constructed, for some threads that will use it. -/
def Pool.start (τ : Type) (users : Nat) : Pool τ where
  workerCount := 0
  targetWorkerCount := 0
  activeWorkerCount := 0
  scheduler := []
  terminateAllWorkers := false
  terminatedWorkers := []
  workers := []
  callers := List.replicate users .outside
  scheduled := []
  fetched := []
  finished := []
  dropped := []

variable {τ : Type}

/-! ### The conditions -/

/-- The end of a wait for a task. -/
def WorkerPc.wake : WorkerPc τ → WorkerPc τ
  | .waiting => .notified
  | pc => pc

/-- The end of a wait for a worker. -/
def CallerPc.wake : CallerPc → CallerPc
  | .blocked call => .test call
  | .terminateBlocked => .terminateTest
  | pc => pc

/-- `m_task_or_terminate_workers_event.notify_all()`. -/
def Pool.notifyWorkers (s : Pool τ) : Pool τ := { s with workers := s.workers.map WorkerPc.wake }

/-- `m_worker_idle_or_terminated_event.notify_all()`. -/
def Pool.notifyCallers (s : Pool τ) : Pool τ := { s with callers := s.callers.map CallerPc.wake }

/-- A worker comes to another place. -/
def Pool.move (s : Pool τ) (i : Nat) (pc : WorkerPc τ) : Pool τ :=
  { s with workers := s.workers.set i pc }

/-- A caller comes to another place. -/
def Pool.moveCaller (s : Pool τ) (i : Nat) (pc : CallerPc) : Pool τ :=
  { s with callers := s.callers.set i pc }

/-! ### The functions of the pool -/

/-- `schedule`, where `woken` is the worker that `notify_one` wakes. -/
def Pool.schedule (s : Pool τ) (task : τ) (woken : Option Nat) : Option (Pool τ) :=
  let s' := { s with scheduler := s.scheduler ++ [task], scheduled := s.scheduled ++ [task] }
  match woken with
  | none => if s.workers.any fun pc => pc matches .waiting then none else some s'
  | some i => if s.workers[i]? matches some .waiting then some (s'.move i .notified) else none

/-- `clear`. -/
def Pool.clear (s : Pool τ) : Pool τ :=
  { s with scheduler := [], dropped := s.dropped ++ s.scheduler }

/-- The loop that creates workers, where `created` of them can be created. -/
def Pool.grow (s : Pool τ) (created : Nat) : Pool τ :=
  { s with
    workers := s.workers ++ List.replicate created .fetch
    workerCount := s.workerCount + created
    activeWorkerCount := s.activeWorkerCount + created }

/-- `resize`. -/
def Pool.resize (s : Pool τ) (count created : Nat) : Option (Pool τ) :=
  if s.terminateAllWorkers then some s
  else
    let s := { s with targetWorkerCount := count }
    if s.workerCount ≤ count then
      if created ≤ count - s.workerCount then some (s.grow created) else none
    else some s.notifyWorkers

/-- The loop of `execute_task`, and what follows it under the mutex. -/
def Pool.fetchTask (s : Pool τ) (i : Nat) : Pool τ :=
  match s.scheduler with
  | [] =>
      -- "decrease number of workers if necessary"
      if s.targetWorkerCount < s.workerCount then s.move i .leaving
      else
        ({ s with activeWorkerCount := s.activeWorkerCount - 1 } : Pool τ).notifyCallers.move i
          .waiting
  | task :: tasks =>
      ({ s with scheduler := tasks, fetched := s.fetched ++ [task] } : Pool τ).move i
        (.running task)

/-- `execute_task` from its start. -/
def Pool.executeTask (s : Pool τ) (i : Nat) : Pool τ :=
  -- "decrease number of threads if necessary"
  if s.targetWorkerCount < s.workerCount then s.move i .leaving else s.fetchTask i

/-- `worker_destructed`, and the first part of `worker_died_unexpectedly`. -/
def Pool.removeWorker (s : Pool τ) (i : Nat) : Pool τ :=
  let s := ({ s with
    workerCount := s.workerCount - 1
    activeWorkerCount := s.activeWorkerCount - 1 } : Pool τ).notifyCallers.move i .ended
  if s.terminateAllWorkers then { s with terminatedWorkers := s.terminatedWorkers ++ [i] } else s

/-- The next step of a worker that does not run a task. -/
def Pool.workerStep (s : Pool τ) (i : Nat) : Option (Pool τ) :=
  match s.workers[i]? with
  | some .fetch => some (s.executeTask i)
  | some .notified =>
      some (({ s with activeWorkerCount := s.activeWorkerCount + 1 } : Pool τ).fetchTask i)
  | some .leaving => some (s.removeWorker i)
  | _ => none

/-- `worker_died_unexpectedly`. The size policy resizes to one more than there are now. -/
def Pool.workerDied (s : Pool τ) (i created : Nat) : Option (Pool τ) :=
  match s.workers[i]? with
  | some .dying =>
      let s := s.removeWorker i
      if s.terminateAllWorkers then some s else s.resize (s.workerCount + 1) created
  | _ => none

/-- The condition of the loop of `wait`. -/
def Pool.busy (s : Pool τ) (threshold : Nat) : Bool :=
  if threshold = 0 then s.activeWorkerCount ≠ 0 || !s.scheduler.isEmpty
  else threshold < s.activeWorkerCount + s.scheduler.length

/-- The start of `terminate_all_workers`. -/
def Pool.requestTerminate (s : Pool τ) : Pool τ :=
  ({ s with terminateAllWorkers := true, targetWorkerCount := 0 } : Pool τ).notifyWorkers

/-- The loop of `terminate_all_workers`, and the joins. The mutex is held while it joins; a worker
in the vector does not need it any more. -/
def Pool.terminateTest (s : Pool τ) (i : Nat) : Pool τ :=
  if 0 < s.activeWorkerCount then s.moveCaller i .terminateBlocked
  else ({ s with terminatedWorkers := [] } : Pool τ).moveCaller i .outside

/-- The next step of a caller that does not wait. -/
def Pool.callerStep (s : Pool τ) (i : Nat) : Option (Pool τ) :=
  match s.callers[i]? with
  | some (.test call) =>
      some (s.moveCaller i (if s.busy call.threshold then .blocked call
        else if call = .shutdown then .terminate else .outside))
  | some .terminate => some (s.requestTerminate.terminateTest i)
  | some .terminateTest => some (s.terminateTest i)
  | _ => none

/-! ### Steps -/

/-- What can happen next: a call of a thread that is outside of the pool, the next step of a caller
or of a worker, the end of a task, or the end of a wait that nobody has notified. -/
inductive PoolAction (τ : Type)
  | schedule (task : τ) (woken : Option Nat)
  | clear
  | resize (count created : Nat)
  | call (i : Nat) (call : WaitCall)
  | caller (i : Nat)
  | worker (i : Nat)
  | returns (i : Nat)
  | throws (i : Nat)
  | died (i created : Nat)
  | wakeWorker (i : Nat)
  | wakeCaller (i : Nat)
deriving DecidableEq, Repr

/-- What happens inside of the pool, when no thread calls it. -/
def PoolAction.inner : PoolAction τ → Bool
  | .schedule .. | .clear | .resize .. | .call .. => false
  | .caller _ | .worker _ | .returns _ | .throws _ | .died .. | .wakeWorker _ | .wakeCaller _ =>
      true

/-- The end of a task: the worker goes on, or the exception leaves `execute_task`. -/
def Pool.endTask (s : Pool τ) (i : Nat) (pc : WorkerPc τ) : Option (Pool τ) :=
  match s.workers[i]? with
  | some (.running task) => some (({ s with finished := s.finished ++ [task] } : Pool τ).move i pc)
  | _ => none

/-- A thread calls `wait` or `shutdown`. -/
def Pool.call (s : Pool τ) (i : Nat) (call : WaitCall) : Option (Pool τ) :=
  if s.callers[i]? = some .outside then some (s.moveCaller i (.test call)) else none

/-- The state after an action; `none` if it is not possible. -/
def poolStep (s : Pool τ) : PoolAction τ → Option (Pool τ)
  | .schedule task woken => s.schedule task woken
  | .clear => some s.clear
  | .resize count created => s.resize count created
  | .call i call => s.call i call
  | .caller i => s.callerStep i
  | .worker i => s.workerStep i
  | .returns i => s.endTask i .fetch
  | .throws i => s.endTask i .dying
  | .died i created => s.workerDied i created
  | .wakeWorker i => (s.workers[i]?).map fun pc => s.move i pc.wake
  | .wakeCaller i => (s.callers[i]?).map fun pc => s.moveCaller i pc.wake

end Monitoring.Threadpool
