import Monitoring.Proofs.PoolTasks
import Monitoring.Server.RunServer

/-!
# `Monitoring.Proofs.RunServer`: the four tasks of the server

`OneUser` is what is known of a pool that only the main thread uses, and `RunServerInv` of this
thread at each of its places. In every run each task is started at most once, and the main thread
is behind the block only when all four are over (`server_tasks_once`). The tasks do not wait for
each other: where all threads were created and no task has thrown, each of them has started as soon
as the workers have done what they can (`server_tasks_started`), however long the others run.
-/

set_option autoImplicit false

namespace Monitoring.Server

open Monitoring.Lib Monitoring.Threadpool

variable {p q : Pool ServerTask} {s t : RunServer}

/-! ### A pool with one user -/

/-- The caller of `shutdown` has passed its wait. -/
def CallerPc.past : CallerPc → Prop
  | .terminate | .terminateTest | .terminateBlocked => True
  | .outside | .test _ | .blocked _ => False

/-- The caller is outside, or in `shutdown`. -/
def CallerPc.inShutdown : CallerPc → Prop
  | .test (.wait _) | .blocked (.wait _) => False
  | _ => True

/-- Everything that was scheduled is over. -/
def Over (p : Pool ServerTask) : Prop := p.scheduled.length ≤ p.finished.length

/-- A pool that one thread uses, which has scheduled these tasks and never calls `clear`. -/
structure OneUser (p : Pool ServerTask) (tasks : List ServerTask) (pc : CallerPc) : Prop where
  inv : PoolInv p
  callers : p.callers = [pc]
  scheduled : p.scheduled = tasks
  dropped : p.dropped = []
  shutdown : CallerPc.inShutdown pc
  past : CallerPc.past pc → Over p
  closed : p.terminateAllWorkers = true → Over p

section
variable {tasks : List ServerTask} {pc pc' : CallerPc} {act : PoolAction ServerTask}

theorem OneUser.account (h : OneUser p tasks pc) :
    tasks.Perm (p.finished ++ p.running ++ p.scheduler) := by
  have haccount := h.inv.tasks.account
  rw [h.scheduled, h.dropped, List.append_nil] at haccount
  exact haccount

theorem OneUser.fetched_append (h : OneUser p tasks pc) : p.fetched ++ p.scheduler = tasks := by
  have hsublist := h.inv.tasks.order
  rw [h.scheduled] at hsublist
  refine hsublist.eq_of_length ?_
  have hfetched := h.inv.tasks.taken.length_eq
  have haccount := h.account.length_eq
  simp only [List.length_append] at hfetched haccount ⊢
  omega

/-- When all is over, nothing runs and nothing is pending. -/
theorem OneUser.over (h : OneUser p tasks pc) (hover : Over p) :
    p.scheduler = [] ∧ p.running = [] ∧ p.finished.Perm tasks := by
  have hlength := h.account.length_eq
  rw [Over, h.scheduled] at hover
  simp only [List.length_append] at hlength
  have hqueue : p.scheduler = [] := List.eq_nil_of_length_eq_zero (by omega)
  have hrunning : p.running = [] := List.eq_nil_of_length_eq_zero (by omega)
  refine ⟨hqueue, hrunning, ?_⟩
  have haccount := h.account
  rw [hqueue, hrunning, List.append_nil, List.append_nil] at haccount
  exact haccount.symm

theorem over_of_idle (hinv : PoolInv p) (hdropped : p.dropped = []) (hbusy : p.busy 0 = false) :
    Over p := by
  have hidle : ¬0 < p.activeWorkerCount + p.scheduler.length := by
    rw [← busy_iff, hbusy]
    exact Bool.false_ne_true
  have hrunning := running_length_le hinv.crew
  have hlength := hinv.tasks.account.length_eq
  rw [hdropped, List.append_nil, List.length_append, List.length_append] at hlength
  unfold Over
  omega

/-- What the workers and the ends of waits do to the only caller: they wake it, at most. -/
def Wakes (pc : CallerPc) (p q : Pool ServerTask) : Prop :=
  q.terminateAllWorkers = p.terminateAllWorkers ∧ (q.callers = [pc] ∨ q.callers = [pc.wake])

theorem wakes_fetchTask {i : Nat} (hcallers : p.callers = [pc]) : Wakes pc p (p.fetchTask i) := by
  unfold Pool.fetchTask
  split
  · split
    · exact ⟨rfl, Or.inl hcallers⟩
    · exact ⟨rfl, Or.inr (congrArg (List.map CallerPc.wake) hcallers)⟩
  · exact ⟨rfl, Or.inl hcallers⟩

theorem wakes_removeWorker {i : Nat} (hcallers : p.callers = [pc]) :
    Wakes pc p (p.removeWorker i) := by
  unfold Pool.removeWorker
  dsimp only
  split <;> exact ⟨rfl, Or.inr (congrArg (List.map CallerPc.wake) hcallers)⟩

theorem frame_resize {count created : Nat} (h : p.resize count created = some q) :
    q.terminateAllWorkers = p.terminateAllWorkers ∧ q.callers = p.callers := by
  unfold Pool.resize at h
  dsimp only at h
  split at h
  · cases h
    exact ⟨rfl, rfl⟩
  · split at h
    · split at h <;> cases h
      exact ⟨rfl, rfl⟩
    · cases h
      exact ⟨rfl, rfl⟩

/-- A step inside of the pool is one of the caller, or wakes it, at most. -/
theorem inner_cases (hact : act.inner = true) (hcallers : p.callers = [pc])
    (hstep : poolStep p act = some q) : p.callerStep 0 = some q ∨ Wakes pc p q := by
  cases act with
  | caller i =>
      left
      cases i with
      | zero => exact hstep
      | succ i =>
          simp only [poolStep, Pool.callerStep, hcallers, List.getElem?_cons_succ,
            List.getElem?_nil] at hstep
          cases hstep
  | worker i =>
      right
      simp only [poolStep, Pool.workerStep] at hstep
      split at hstep <;> cases hstep
      · unfold Pool.executeTask
        split
        · exact ⟨rfl, Or.inl hcallers⟩
        · exact wakes_fetchTask hcallers
      · exact wakes_fetchTask (p := { p with activeWorkerCount := p.activeWorkerCount + 1 })
          hcallers
      · exact wakes_removeWorker hcallers
  | returns i | throws i =>
      right
      simp only [poolStep, Pool.endTask] at hstep
      split at hstep <;> cases hstep
      exact ⟨rfl, Or.inl hcallers⟩
  | died i created =>
      right
      simp only [poolStep, Pool.workerDied] at hstep
      have hremoved := wakes_removeWorker (i := i) hcallers
      split at hstep
      · split at hstep
        · cases hstep
          exact hremoved
        · obtain ⟨hflag, hsame⟩ := frame_resize hstep
          exact ⟨hflag.trans hremoved.1, hremoved.2.imp hsame.trans hsame.trans⟩
      · cases hstep
  | wakeWorker i =>
      right
      obtain ⟨w, -, rfl⟩ := Option.map_eq_some_iff.mp hstep
      exact ⟨rfl, Or.inl hcallers⟩
  | wakeCaller i =>
      right
      obtain ⟨pc', hi, rfl⟩ := Option.map_eq_some_iff.mp hstep
      rw [hcallers] at hi
      cases i with
      | zero =>
          cases hi
          exact ⟨rfl, Or.inr (congrArg (fun callers => callers.set 0 pc.wake) hcallers)⟩
      | succ i => cases hi
  | _ => cases hact

/-- What is over stays over. -/
theorem over_inner (hact : act.inner = true) (hover : Over p) (hstep : poolStep p act = some q) :
    Over q := by
  obtain ⟨hscheduled, -, hfinished⟩ := ghosts_step hstep
  have htask : act.task = none := by cases act <;> first | rfl | cases hact
  unfold Over
  rw [hscheduled, hfinished, htask, Option.toList_none, List.append_nil, List.length_append]
  exact Nat.le_add_right_of_le hover

theorem past_wake (pc : CallerPc) : CallerPc.past pc.wake ↔ CallerPc.past pc := by
  cases pc <;> exact Iff.rfl

theorem callers_terminateTest (p : Pool ServerTask) (hcallers : p.callers = [pc]) :
    (p.terminateTest 0).callers = [.terminateBlocked] ∨
      (p.terminateTest 0).callers = [.outside] := by
  have hset (pc' : CallerPc) : p.callers.set 0 pc' = [pc'] := by rw [hcallers, List.set_cons_zero]
  unfold Pool.terminateTest
  split
  · exact Or.inl (hset _)
  · exact Or.inr (hset _)

/-- A step inside of the pool. The caller stays outside, and is outside behind a `shutdown` only
when all is over. -/
theorem oneUser_inner (h : OneUser p tasks pc) (hact : act.inner = true)
    (hstep : poolStep p act = some q) : ∃ pc', OneUser q tasks pc' ∧
      (pc = .outside → pc' = .outside ∧ q.terminateAllWorkers = p.terminateAllWorkers) ∧
      (pc ≠ .outside → pc' = .outside → Over q) := by
  have hinv := poolInv_step h.inv hstep
  have hover : Over p → Over q := fun hover => over_inner hact hover hstep
  obtain ⟨hscheduled, hdropped, -⟩ := ghosts_step hstep
  have htask : act.task = none := by cases act <;> first | rfl | cases hact
  have hcleared : act.cleared p = [] := by cases act <;> first | rfl | cases hact
  rw [htask, Option.toList_none, List.append_nil, h.scheduled] at hscheduled
  rw [hcleared, List.append_nil, h.dropped] at hdropped
  rcases inner_cases hact h.callers hstep with hcaller | ⟨hflag, hcallers⟩
  · -- behind the wait of `shutdown` all is over
    have hpast (hpast : Over q) (pc' : CallerPc) (hpc' : CallerPc.inShutdown pc')
        (hcallers : q.callers = [pc']) (hne : pc ≠ .outside) : ∃ pc', OneUser q tasks pc' ∧
          (pc = .outside → pc' = .outside ∧ q.terminateAllWorkers = p.terminateAllWorkers) ∧
          (pc ≠ .outside → pc' = .outside → Over q) :=
      ⟨pc', ⟨hinv, hcallers, hscheduled, hdropped, hpc', fun _ => hpast, fun _ => hpast⟩,
        fun hout => absurd hout hne, fun _ _ => hpast⟩
    rw [Pool.callerStep, h.callers] at hcaller
    cases pc with
    | outside | blocked | terminateBlocked => cases hcaller
    | test call =>
        cases call with
        | wait k => exact h.shutdown.elim
        | shutdown =>
            simp only [List.getElem?_cons_zero, Option.some.injEq] at hcaller
            cases hbusy : p.busy WaitCall.shutdown.threshold with
            | true =>
                rw [hbusy, if_pos rfl] at hcaller
                subst hcaller
                refine ⟨.blocked .shutdown, ⟨hinv, ?_, hscheduled, hdropped, trivial,
                  fun hp => hp.elim, fun hset => hover (h.closed hset)⟩, ?_, ?_⟩
                · exact congrArg (fun callers => callers.set 0 (.blocked .shutdown)) h.callers
                · rintro ⟨⟩
                · rintro - ⟨⟩
            | false =>
                have hidle := over_of_idle h.inv h.dropped hbusy
                rw [hbusy, if_neg Bool.false_ne_true, if_pos trivial] at hcaller
                refine hpast (hover hidle) .terminate trivial ?_ (by rintro ⟨⟩)
                subst hcaller
                exact congrArg (fun callers => callers.set 0 .terminate) h.callers
    | terminate =>
        have hq := hover (h.past trivial)
        cases hcaller
        rcases callers_terminateTest p.requestTerminate h.callers with hq' | hq'
        · exact hpast hq .terminateBlocked trivial hq' (by rintro ⟨⟩)
        · exact hpast hq .outside trivial hq' (by rintro ⟨⟩)
    | terminateTest =>
        have hq := hover (h.past trivial)
        cases hcaller
        rcases callers_terminateTest p h.callers with hq' | hq'
        · exact hpast hq .terminateBlocked trivial hq' (by rintro ⟨⟩)
        · exact hpast hq .outside trivial hq' (by rintro ⟨⟩)
  · have hclosed : q.terminateAllWorkers = true → Over q := by
      rw [hflag]
      exact fun hset => hover (h.closed hset)
    rcases hcallers with hcallers | hcallers
    · exact ⟨pc, ⟨hinv, hcallers, hscheduled, hdropped, h.shutdown,
        fun hpast => hover (h.past hpast), hclosed⟩, fun hout => ⟨hout, hflag⟩,
        fun hne hout => absurd hout hne⟩
    · refine ⟨pc.wake, ⟨hinv, hcallers, hscheduled, hdropped, ?_,
        fun hpast => hover (h.past ((past_wake pc).mp hpast)), hclosed⟩, ?_, ?_⟩
      · have hshutdown := h.shutdown
        cases pc with
        | blocked call => cases call <;> exact hshutdown
        | _ => exact hshutdown
      · rintro rfl
        exact ⟨rfl, hflag⟩
      · intro hne hout
        cases pc <;> first | exact absurd rfl hne | cases hout

end

/-! ### The main thread -/

/-- What is known of the main thread and of its pool, at each of its places. -/
def RunServerInv (s : RunServer) : Prop :=
  match s.pc with
  | .test => (s.isRunning = false ∧ s.pools = []) ∨
      (s.isRunning = true ∧ ∃ p, s.pools = [p] ∧ OneUser p serverTasks .outside ∧ Over p)
  | .construct => s.isRunning = false ∧ s.pools = []
  | .schedule tasks => s.isRunning = false ∧ ∃ p front, s.pools = [p] ∧
      front ++ tasks = serverTasks ∧ OneUser p front .outside ∧ p.terminateAllWorkers = false
  | .destroy => s.isRunning = true ∧ ∃ p, s.pools = [p] ∧ OneUser p serverTasks .outside ∧
      p.terminateAllWorkers = false
  | .shutdown => s.isRunning = true ∧ ∃ p pc, s.pools = [p] ∧ OneUser p serverTasks pc ∧
      (pc = .outside → Over p)
  | .sleep => s.isRunning = true ∧ ∃ p, s.pools = [p] ∧ OneUser p serverTasks .outside ∧ Over p

theorem runServerInv_start : RunServerInv RunServer.start := Or.inl ⟨rfl, rfl⟩

section
variable {tasks : List ServerTask}

/-- The pool that `run_server` constructs. -/
theorem oneUser_construct {created : Nat}
    (h : (Pool.start ServerTask 1).resize 4 created = some p) :
    OneUser p [] .outside ∧ p.terminateAllWorkers = false := by
  have hstep : poolStep (Pool.start ServerTask 1) (.resize 4 created) = some p := h
  have hinv := poolInv_step (poolInv_start 1) hstep
  obtain ⟨hflag, hcallers⟩ := frame_resize h
  obtain ⟨hscheduled, hdropped, -⟩ := ghosts_step hstep
  refine ⟨⟨hinv, hcallers, hscheduled, hdropped, trivial, fun hp => hp.elim, fun hset => ?_⟩, hflag⟩
  rw [hflag] at hset
  cases hset

theorem oneUser_schedule {task : ServerTask} {woken : Option Nat} (h : OneUser p tasks .outside)
    (hflag : p.terminateAllWorkers = false) (hschedule : p.schedule task woken = some q) :
    OneUser q (tasks ++ [task]) .outside ∧ q.terminateAllWorkers = false := by
  have hstep : poolStep p (.schedule task woken) = some q := hschedule
  have hinv := poolInv_step h.inv hstep
  obtain ⟨hscheduled, hdropped, -⟩ := ghosts_step hstep
  have hsame : q.callers = p.callers ∧ q.terminateAllWorkers = p.terminateAllWorkers := by
    unfold Pool.schedule at hschedule
    dsimp only at hschedule
    split at hschedule <;> split at hschedule <;> cases hschedule <;> exact ⟨rfl, rfl⟩
  rw [h.scheduled] at hscheduled
  have hcleared : PoolAction.cleared p (.schedule task woken) = [] := rfl
  rw [hcleared, List.append_nil, h.dropped] at hdropped
  have hflag' := hsame.2.trans hflag
  refine ⟨⟨hinv, hsame.1.trans h.callers, hscheduled, hdropped, trivial, fun hp => hp.elim,
    fun hset => ?_⟩, hflag'⟩
  rw [hflag'] at hset
  cases hset

theorem oneUser_call (h : OneUser p tasks .outside) (hcall : p.call 0 .shutdown = some q) :
    OneUser q tasks (.test .shutdown) := by
  have hstep : poolStep p (.call 0 .shutdown) = some q := hcall
  have hinv := poolInv_step h.inv hstep
  unfold Pool.call at hcall
  split at hcall <;> cases hcall
  refine ⟨hinv, ?_, h.scheduled, h.dropped, trivial, fun hp => hp.elim, h.closed⟩
  exact congrArg (fun callers => callers.set 0 (.test .shutdown)) h.callers

end

theorem runServerInv_main {created : Nat} {woken : Option Nat} (h : RunServerInv s)
    (hstep : s.mainStep created woken = some t) : RunServerInv t := by
  obtain ⟨pc, isRunning, pools⟩ := s
  cases pc with
  | test =>
      cases hstep
      rcases h with ⟨hrunning, hpools⟩ | ⟨hrunning, hpool⟩
      · obtain rfl : isRunning = false := hrunning
        exact ⟨rfl, hpools⟩
      · obtain rfl : isRunning = true := hrunning
        exact ⟨rfl, hpool⟩
  | construct =>
      obtain ⟨hrunning, hpools⟩ := h
      obtain ⟨p, hp, rfl⟩ := Option.map_eq_some_iff.mp hstep
      obtain ⟨huser, hflag⟩ := oneUser_construct hp
      exact ⟨hrunning, p, [], congrArg (p :: ·) hpools, rfl, huser, hflag⟩
  | schedule tasks =>
      obtain ⟨hrunning, p, front, hpools, hfront, huser, hflag⟩ := h
      obtain rfl : pools = [p] := hpools
      cases tasks with
      | nil =>
          cases hstep
          rw [List.append_nil] at hfront
          subst hfront
          exact ⟨rfl, p, rfl, huser, hflag⟩
      | cons task tasks =>
          obtain ⟨q, hq, rfl⟩ := Option.map_eq_some_iff.mp hstep
          obtain ⟨huser', hflag'⟩ := oneUser_schedule huser hflag hq
          refine ⟨hrunning, q, front ++ [task], rfl, ?_, huser', hflag'⟩
          rw [List.append_assoc]
          exact hfront
  | destroy =>
      obtain ⟨hrunning, p, hpools, huser, -⟩ := h
      obtain rfl : pools = [p] := hpools
      obtain ⟨q, hq, rfl⟩ := Option.map_eq_some_iff.mp hstep
      exact ⟨hrunning, q, _, rfl, oneUser_call huser hq, by rintro ⟨⟩⟩
  | shutdown =>
      obtain ⟨hrunning, p, pc, hpools, huser, hover⟩ := h
      obtain rfl : pools = [p] := hpools
      simp only [RunServer.mainStep, huser.callers] at hstep
      split at hstep
      · rename_i hout
        cases hstep
        obtain rfl : pc = .outside := Option.some.inj hout
        exact Or.inr ⟨hrunning, p, rfl, huser, hover rfl⟩
      · cases hstep
  | sleep =>
      cases hstep
      exact Or.inr h

theorem runServerInv_threads {k : Nat} {act : PoolAction ServerTask} (h : RunServerInv s)
    (hact : act.inner = true) (hk : s.pools[k]? = some p) (hstep : poolStep p act = some q) :
    RunServerInv { s with pools := s.pools.set k q } := by
  obtain ⟨pc, isRunning, pools⟩ := s
  have honly {p' : Pool ServerTask} (hpools : pools = [p']) : p = p' ∧ pools.set k q = [q] := by
    subst hpools
    cases k with
    | zero => exact ⟨(Option.some.inj hk).symm, rfl⟩
    | succ k => cases hk
  have hnone (hpools : pools = []) : False := by
    subst hpools
    cases hk
  cases pc with
  | test =>
      rcases h with ⟨-, hpools⟩ | ⟨hrunning, p', hpools, huser, hover⟩
      · exact (hnone hpools).elim
      · obtain ⟨rfl, hset⟩ := honly hpools
        obtain ⟨pc', huser', hout, -⟩ := oneUser_inner huser hact hstep
        obtain ⟨rfl, -⟩ := hout rfl
        exact Or.inr ⟨hrunning, q, hset, huser', over_inner hact hover hstep⟩
  | construct => exact (hnone h.2).elim
  | schedule tasks =>
      obtain ⟨hrunning, p', front, hpools, hfront, huser, hflag⟩ := h
      obtain ⟨rfl, hset⟩ := honly hpools
      obtain ⟨pc', huser', hout, -⟩ := oneUser_inner huser hact hstep
      obtain ⟨rfl, hflag'⟩ := hout rfl
      exact ⟨hrunning, q, front, hset, hfront, huser', hflag'.trans hflag⟩
  | destroy =>
      obtain ⟨hrunning, p', hpools, huser, hflag⟩ := h
      obtain ⟨rfl, hset⟩ := honly hpools
      obtain ⟨pc', huser', hout, -⟩ := oneUser_inner huser hact hstep
      obtain ⟨rfl, hflag'⟩ := hout rfl
      exact ⟨hrunning, q, hset, huser', hflag'.trans hflag⟩
  | shutdown =>
      obtain ⟨hrunning, p', pc, hpools, huser, hover⟩ := h
      obtain ⟨rfl, hset⟩ := honly hpools
      obtain ⟨pc', huser', -, hreturned⟩ := oneUser_inner huser hact hstep
      refine ⟨hrunning, q, pc', hset, huser', fun hpc' => ?_⟩
      by_cases hpc : pc = .outside
      · exact over_inner hact (hover hpc) hstep
      · exact hreturned hpc hpc'
  | sleep =>
      obtain ⟨hrunning, p', hpools, huser, hover⟩ := h
      obtain ⟨rfl, hset⟩ := honly hpools
      obtain ⟨pc', huser', hout, -⟩ := oneUser_inner huser hact hstep
      obtain ⟨rfl, -⟩ := hout rfl
      exact ⟨hrunning, q, hset, huser', over_inner hact hover hstep⟩

theorem runServerInv_step {act : RunServerAction} (h : RunServerInv s)
    (hstep : runServerStep s act = some t) : RunServerInv t := by
  cases act with
  | main created woken => exact runServerInv_main h hstep
  | threads k act =>
      simp only [runServerStep] at hstep
      split at hstep
      · rename_i hact
        obtain ⟨p, hk, hp⟩ := Option.bind_eq_some_iff.mp hstep
        obtain ⟨q, hq, rfl⟩ := Option.map_eq_some_iff.mp hp
        exact runServerInv_threads h hact hk hq
      · cases hstep

/-- There is a pool at most, of one user, and its tasks are the first of the four, or all of them
when IS_RUNNING is set. -/
theorem RunServerInv.pools (h : RunServerInv s) : (s.isRunning = false ∧ s.pools = []) ∨
    ∃ p front back pc, s.pools = [p] ∧ front ++ back = serverTasks ∧ OneUser p front pc ∧
      (s.isRunning = true → back = []) := by
  unfold RunServerInv at h
  have hall : serverTasks ++ [] = serverTasks := List.append_nil _
  split at h
  · rcases h with h | ⟨-, p, hpools, huser, -⟩
    · exact Or.inl h
    · exact Or.inr ⟨p, serverTasks, [], _, hpools, hall, huser, fun _ => rfl⟩
  · exact Or.inl h
  · rename_i tasks _
    obtain ⟨hrunning, p, front, hpools, hfront, huser, -⟩ := h
    refine Or.inr ⟨p, front, tasks, _, hpools, hfront, huser, fun htrue => ?_⟩
    rw [hrunning] at htrue
    cases htrue
  · obtain ⟨-, p, hpools, huser, -⟩ := h
    exact Or.inr ⟨p, serverTasks, [], _, hpools, hall, huser, fun _ => rfl⟩
  · obtain ⟨-, p, pc, hpools, huser, -⟩ := h
    exact Or.inr ⟨p, serverTasks, [], pc, hpools, hall, huser, fun _ => rfl⟩
  · obtain ⟨-, p, hpools, huser, -⟩ := h
    exact Or.inr ⟨p, serverTasks, [], _, hpools, hall, huser, fun _ => rfl⟩

theorem runServerInv_run {acts : List RunServerAction}
    (h : run runServerStep acts RunServer.start = some s) : RunServerInv s :=
  run_invariant (fun _ _ _ => runServerInv_step) runServerInv_start h

/-- In every run, `run_server` constructs a single pool; the tasks that have been started are the
first of the four, each of them once; and the main thread is back in its loop with IS_RUNNING set
only when all four tasks are over. -/
theorem server_tasks_once {acts : List RunServerAction}
    (h : run runServerStep acts RunServer.start = some s) :
    s.pools.length ≤ 1 ∧ (∀ p ∈ s.pools, p.fetched <+: serverTasks) ∧
      (s.isRunning = true → s.pc = .test ∨ s.pc = .sleep →
        ∃ p, s.pools = [p] ∧ p.finished.Perm serverTasks) := by
  have hinv := runServerInv_run h
  refine ⟨?_, fun p hp => ?_, fun hrunning hpc => ?_⟩
  · rcases hinv.pools with ⟨-, hpools⟩ | ⟨p, front, back, pc, hpools, -⟩ <;> rw [hpools]
    · exact Nat.zero_le _
    · exact Nat.le_refl _
  · rcases hinv.pools with ⟨-, hpools⟩ | ⟨p', front, back, pc, hpools, hfront, huser, -⟩
    · rw [hpools] at hp
      cases hp
    · rw [hpools, List.mem_singleton] at hp
      subst hp
      have hprefix : p.fetched <+: front := ⟨p.scheduler, huser.fetched_append⟩
      exact hprefix.trans ⟨back, hfront⟩
  · unfold RunServerInv at hinv
    rcases hpc with hpc | hpc <;> rw [hpc] at hinv
    · rcases hinv with ⟨hfalse, -⟩ | ⟨-, p, hpools, huser, hover⟩
      · rw [hrunning] at hfalse
        cases hfalse
      · exact ⟨p, hpools, (huser.over hover).2.2⟩
    · obtain ⟨-, p, hpools, huser, hover⟩ := hinv
      exact ⟨p, hpools, (huser.over hover).2.2⟩

theorem server_tasks_once_return : ∃ acts : List RunServerAction, ∃ s,
    run runServerStep acts RunServer.start = some s ∧ s.pc = .test ∧ s.isRunning = true ∧
      ∃ p, s.pools = [p] ∧ p.finished.Perm serverTasks := by
  let begins : List RunServerAction := List.replicate 7 (.main 4 none)
  let each (act : Nat → PoolAction ServerTask) : List RunServerAction :=
    (List.range 4).map fun i => .threads 0 (act i)
  let acts := begins ++ each .worker ++ each .returns ++ [.main 4 none] ++ each .worker ++
    [.threads 0 (.caller 0), .threads 0 (.caller 0), .main 4 none]
  have hend : (run runServerStep acts RunServer.start).map (fun s => (s.pc, s.isRunning))
      = some (.test, true) := by decide +kernel
  obtain ⟨s, hrun, hs⟩ := Option.map_eq_some_iff.mp hend
  obtain ⟨hpc, hrunning⟩ := Prod.mk.inj hs
  exact ⟨acts, s, hrun, hpc, hrunning, (server_tasks_once hrun).2.2 hrunning (Or.inl hpc)⟩

/-! ### All of them run -/

/-- Four workers at work. -/
structure FullCrew (p : Pool ServerTask) : Prop where
  length : p.workers.length = 4
  count : p.workerCount ≤ p.targetWorkerCount
  places : ∀ pc ∈ p.workers, pc ≠ .leaving ∧ pc ≠ .dying ∧ pc ≠ .ended

/-- Where no thread is missing and no task throws, the crew is full until `shutdown` lets it go. -/
def Crewed (p : Pool ServerTask) : Prop := p.terminateAllWorkers = false → FullCrew p

section
variable {i : Nat} {w : WorkerPc ServerTask}

theorem FullCrew.move (h : FullCrew p) (hworkers : q.workers = p.workers.set i w)
    (hcount : q.workerCount = p.workerCount) (htarget : q.targetWorkerCount = p.targetWorkerCount)
    (hw : w ≠ .leaving ∧ w ≠ .dying ∧ w ≠ .ended) : FullCrew q where
  length := by rw [hworkers, List.length_set, h.length]
  count := by rw [hcount, htarget]; exact h.count
  places pc hpc := by
    rw [hworkers] at hpc
    exact (List.mem_or_eq_of_mem_set hpc).elim (h.places pc) fun heq => heq ▸ hw

theorem fullCrew_fetchTask (h : FullCrew p) : FullCrew (p.fetchTask i) := by
  unfold Pool.fetchTask
  split
  · rw [if_neg (Nat.not_lt.mpr h.count)]
    exact h.move rfl rfl rfl ⟨by rintro ⟨⟩, by rintro ⟨⟩, by rintro ⟨⟩⟩
  · exact h.move rfl rfl rfl ⟨by rintro ⟨⟩, by rintro ⟨⟩, by rintro ⟨⟩⟩

/-- Steps without an exception. -/
theorem fullCrew_inner {act : PoolAction ServerTask} (h : FullCrew p) (hact : act.inner = true)
    (hthrows : ∀ i, act ≠ .throws i) (hstep : poolStep p act = some q) :
    q.terminateAllWorkers = true ∨ FullCrew q := by
  cases act with
  | caller i =>
      simp only [poolStep, Pool.callerStep] at hstep
      split at hstep <;> cases hstep
      · exact Or.inr ⟨h.length, h.count, h.places⟩
      · left
        unfold Pool.terminateTest
        split <;> rfl
      · right
        unfold Pool.terminateTest
        split <;> exact ⟨h.length, h.count, h.places⟩
  | worker i =>
      right
      simp only [poolStep, Pool.workerStep] at hstep
      split at hstep
      · cases hstep
        unfold Pool.executeTask
        rw [if_neg (Nat.not_lt.mpr h.count)]
        exact fullCrew_fetchTask h
      · cases hstep
        have hawake : FullCrew { p with activeWorkerCount := p.activeWorkerCount + 1 } :=
          ⟨h.length, h.count, h.places⟩
        exact fullCrew_fetchTask hawake
      · rename_i hi
        exact absurd rfl (h.places _ (List.mem_of_getElem? hi)).1
      · cases hstep
  | returns i =>
      right
      simp only [poolStep, Pool.endTask] at hstep
      split at hstep <;> cases hstep
      exact h.move rfl rfl rfl ⟨by rintro ⟨⟩, by rintro ⟨⟩, by rintro ⟨⟩⟩
  | throws i => exact absurd rfl (hthrows i)
  | died i created =>
      simp only [poolStep, Pool.workerDied] at hstep
      split at hstep
      · rename_i hi
        exact absurd rfl (h.places _ (List.mem_of_getElem? hi)).2.1
      · cases hstep
  | wakeWorker i =>
      right
      obtain ⟨w, hi, rfl⟩ := Option.map_eq_some_iff.mp hstep
      have hw := h.places w (List.mem_of_getElem? hi)
      refine h.move rfl rfl rfl ?_
      cases w <;> first | exact hw | exact ⟨by rintro ⟨⟩, by rintro ⟨⟩, by rintro ⟨⟩⟩
  | wakeCaller i =>
      right
      obtain ⟨pc, -, rfl⟩ := Option.map_eq_some_iff.mp hstep
      exact ⟨h.length, h.count, h.places⟩
  | _ => cases hact

end

/-- All four threads can be created, and no task throws. -/
def RunServerAction.Sound : RunServerAction → Prop
  | .main created _ => created = 4
  | .threads _ act => ∀ i, act ≠ .throws i

/-- The flag stays set. -/
theorem flag_inner {act : PoolAction ServerTask} {pc : CallerPc} (hact : act.inner = true)
    (hcallers : p.callers = [pc]) (hflag : p.terminateAllWorkers = true)
    (hstep : poolStep p act = some q) : q.terminateAllWorkers = true := by
  rcases inner_cases hact hcallers hstep with hcaller | ⟨hsame, -⟩
  · unfold Pool.callerStep at hcaller
    split at hcaller <;> cases hcaller
    · exact hflag
    · unfold Pool.terminateTest
      split <;> rfl
    · unfold Pool.terminateTest
      split <;> exact hflag
  · exact hsame.trans hflag

theorem crewed_inner {act : PoolAction ServerTask} {pc : CallerPc} (h : Crewed p)
    (hact : act.inner = true) (hthrows : ∀ i, act ≠ .throws i) (hcallers : p.callers = [pc])
    (hstep : poolStep p act = some q) : Crewed q := by
  intro hopen
  cases hflag : p.terminateAllWorkers with
  | true =>
      rw [flag_inner hact hcallers hflag hstep] at hopen
      cases hopen
  | false =>
      refine (fullCrew_inner (h hflag) hact hthrows hstep).resolve_left ?_
      rw [hopen]
      exact Bool.false_ne_true

theorem crewed_main {woken : Option Nat} (hinv : RunServerInv s) (h : ∀ p ∈ s.pools, Crewed p)
    (hstep : s.mainStep 4 woken = some t) : ∀ p ∈ t.pools, Crewed p := by
  obtain ⟨pc, isRunning, pools⟩ := s
  cases pc with
  | test | sleep =>
      cases hstep
      exact h
  | construct =>
      obtain ⟨-, hpools⟩ := hinv
      obtain rfl : pools = [] := hpools
      cases hstep
      intro p hp
      obtain rfl := List.mem_singleton.mp hp
      exact fun _ => ⟨rfl, Nat.le_refl _, by decide⟩
  | schedule tasks =>
      obtain ⟨-, p, front, hpools, -, -, hflag⟩ := hinv
      obtain rfl : pools = [p] := hpools
      have hfull := h p (List.mem_singleton_self p) hflag
      cases tasks with
      | nil =>
          cases hstep
          exact h
      | cons task tasks =>
          obtain ⟨q, hq, rfl⟩ := Option.map_eq_some_iff.mp hstep
          intro q' hq'
          obtain rfl := List.mem_singleton.mp hq'
          intro _
          unfold Pool.schedule at hq
          dsimp only at hq
          split at hq <;> split at hq <;> cases hq
          · exact ⟨hfull.length, hfull.count, hfull.places⟩
          · exact hfull.move rfl rfl rfl ⟨by rintro ⟨⟩, by rintro ⟨⟩, by rintro ⟨⟩⟩
  | destroy =>
      obtain ⟨-, p, hpools, huser, hflag⟩ := hinv
      obtain rfl : pools = [p] := hpools
      have hfull := h p (List.mem_singleton_self p) hflag
      obtain ⟨q, hq, rfl⟩ := Option.map_eq_some_iff.mp hstep
      intro q' hq'
      obtain rfl := List.mem_singleton.mp hq'
      unfold Pool.call at hq
      split at hq <;> cases hq
      exact fun _ => ⟨hfull.length, hfull.count, hfull.places⟩
  | shutdown =>
      obtain ⟨-, p, pc, hpools, huser, -⟩ := hinv
      obtain rfl : pools = [p] := hpools
      simp only [RunServer.mainStep] at hstep
      split at hstep <;> cases hstep
      exact h

theorem crewed_step {act : RunServerAction} (hinv : RunServerInv s) (h : ∀ p ∈ s.pools, Crewed p)
    (hact : act.Sound) (hstep : runServerStep s act = some t) : ∀ p ∈ t.pools, Crewed p := by
  cases act with
  | main created woken =>
      obtain rfl : created = 4 := hact
      exact crewed_main hinv h hstep
  | threads k act =>
      simp only [runServerStep] at hstep
      split at hstep
      · rename_i hinner
        obtain ⟨p, hk, hp⟩ := Option.bind_eq_some_iff.mp hstep
        obtain ⟨q, hq, rfl⟩ := Option.map_eq_some_iff.mp hp
        intro p' hp'
        rcases List.mem_or_eq_of_mem_set hp' with hmem | rfl
        · exact h p' hmem
        · have hmem := List.mem_of_getElem? hk
          rcases hinv.pools with ⟨-, hpools⟩ | ⟨p'', front, back, pc, hpools, -, huser, -⟩
          · rw [hpools] at hmem
            cases hmem
          · rw [hpools, List.mem_singleton] at hmem
            subst hmem
            exact crewed_inner (h p (List.mem_of_getElem? hk)) hinner hact huser.callers hq
      · cases hstep

/-- Four workers, none of them on its way, leave no task pending. -/
theorem scheduler_eq_nil {tasks : List ServerTask} {pc : CallerPc} (huser : OneUser p tasks pc)
    (htasks : tasks.length ≤ 4) (hfull : FullCrew p) (hrest : ∀ i, p.workerStep i = none) :
    p.scheduler = [] := by
  by_contra hpending
  have hlength := List.length_pos_iff.mpr hpending
  have hnotified : p.workers.countP WorkerPc.isNotified = 0 := by
    rw [List.countP_eq_zero]
    intro w hw hisNotified
    cases w <;> first | exact (workers_at_rest hrest hw).2.1 rfl | cases hisNotified
  have hrunning : ∀ w ∈ p.workers, w.task.isSome = true := by
    intro w hw
    obtain ⟨hfetch, hnot, -⟩ := workers_at_rest hrest hw
    obtain ⟨hleaving, hdying, hended⟩ := hfull.places w hw
    cases w with
    | running task => rfl
    | waiting =>
        have hpromised := huser.inv.crew.promised hw
        omega
    | fetch => exact absurd rfl hfetch
    | notified => exact absurd rfl hnot
    | leaving => exact absurd rfl hleaving
    | dying => exact absurd rfl hdying
    | ended => exact absurd rfl hended
  have hfour : p.running.length = 4 := by
    rw [Pool.running, List.length_filterMap_eq_countP, List.countP_eq_length.mpr hrunning,
      hfull.length]
  have haccount := huser.account.length_eq
  simp only [List.length_append] at haccount
  omega

/-- The tasks do not wait for each other. In a run in which all four threads were created and no
task has thrown, no task is pending as soon as no worker is on its way; with IS_RUNNING set all four
have been started then, and those that have not returned are running. -/
theorem server_tasks_started {acts : List RunServerAction}
    (h : run runServerStep acts RunServer.start = some s) (hsound : ∀ act ∈ acts, act.Sound)
    (hrest : ∀ p ∈ s.pools, ∀ i, p.workerStep i = none) :
    (∀ p ∈ s.pools, p.scheduler = []) ∧
      (s.isRunning = true → ∃ p, s.pools = [p] ∧ p.fetched = serverTasks ∧
        serverTasks.Perm (p.finished ++ p.running)) := by
  have hkeeps (s : RunServer) (act : RunServerAction) (t : RunServer)
      (hs : RunServerInv s ∧ ∀ p ∈ s.pools, Crewed p) (hact : act.Sound)
      (hstep : runServerStep s act = some t) : RunServerInv t ∧ ∀ p ∈ t.pools, Crewed p :=
    ⟨runServerInv_step hs.1 hstep, crewed_step hs.1 hs.2 hact hstep⟩
  obtain ⟨hinv, hcrewed⟩ := run_invariant_of_allSteps hkeeps
    ⟨runServerInv_start, by rintro p ⟨⟩⟩ (allSteps_of_forall hsound) h
  rcases hinv.pools with ⟨hrunning, hpools⟩ | ⟨p, front, back, pc, hpools, hfront, huser, hback⟩
  · rw [hrunning, hpools]
    exact ⟨by rintro p ⟨⟩, by rintro ⟨⟩⟩
  have hp : p ∈ s.pools := by
    rw [hpools]
    exact List.mem_singleton_self p
  have hqueue : p.scheduler = [] := by
    cases hflag : p.terminateAllWorkers with
    | true => exact (huser.over (huser.closed hflag)).1
    | false =>
        have htasks : front.length ≤ 4 := by
          have hfour : (front ++ back).length = 4 := by rw [hfront]; rfl
          rw [List.length_append] at hfour
          omega
        exact scheduler_eq_nil huser htasks (hcrewed p hp hflag) (hrest p hp)
  refine ⟨fun p' hp' => ?_, fun hrunning => ⟨p, hpools, ?_, ?_⟩⟩
  · rw [hpools, List.mem_singleton] at hp'
    rw [hp', hqueue]
  all_goals
    obtain rfl := hback hrunning
    rw [List.append_nil] at hfront
    subst hfront
  · have hfetched := huser.fetched_append
    rwa [hqueue, List.append_nil] at hfetched
  · have haccount := huser.account
    rwa [hqueue, List.append_nil] at haccount

theorem server_tasks_started_all : ∃ acts : List RunServerAction, ∃ s,
    run runServerStep acts RunServer.start = some s ∧
      ∃ p, s.pools = [p] ∧ p.finished = [] ∧ serverTasks.Perm (p.finished ++ p.running) := by
  let acts : List RunServerAction := List.replicate 7 (.main 4 none) ++
    (List.range 4).map fun i => .threads 0 (.worker i)
  cases hrun : run runServerStep acts RunServer.start with
  | none => exact absurd hrun (by decide)
  | some s =>
      have hsound : ∀ act ∈ acts, act.Sound := by
        intro act hact
        simp only [acts, List.mem_append, List.mem_replicate, List.mem_map] at hact
        rcases hact with ⟨-, rfl⟩ | ⟨i, -, rfl⟩
        · exact rfl
        · rintro j ⟨⟩
      have hrest : ∀ p ∈ s.pools, ∀ i, p.workerStep i = none := by
        cases hrun
        intro p hp i
        obtain rfl := List.mem_singleton.mp hp
        match i with
        | 0 | 1 | 2 | 3 => rfl
        | _ + 4 => rfl
      have hrunning : s.isRunning = true := by cases hrun; rfl
      have hfinished : ∀ p ∈ s.pools, p.finished = [] := by
        cases hrun
        decide
      obtain ⟨p, hpools, -, hperm⟩ := (server_tasks_started hrun hsound hrest).2 hrunning
      exact ⟨acts, s, hrun, p, hpools, hfinished p (hpools ▸ List.mem_singleton_self p), hperm⟩

end Monitoring.Server
