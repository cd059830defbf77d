import Monitoring.Proofs.PoolThreads

/-!
# `Monitoring.Proofs.PoolTasks`: what becomes of a task

`TaskInv` accounts for the tasks: they are taken in the order in which they were scheduled, and each
of them once. With the invariants of `Monitoring.Proofs.PoolThreads` this gives what the pool
promises to its users, in every run: `tasks_accounted` and `pending_tasks_served` for `schedule`,
`wait_returns` and `no_caller_stranded` for `wait` and `shutdown`.
-/

set_option autoImplicit false

namespace Monitoring.Threadpool

open Monitoring.Lib

variable {τ : Type} {s t : Pool τ} {i : Nat} {a b : WorkerPc τ}

/-! ### The tasks -/

/-- The tasks are taken in their order, what was taken is over or runs, and what was scheduled was
taken, is pending, or was dropped. -/
structure TaskInv (s : Pool τ) : Prop where
  order : (s.fetched ++ s.scheduler).Sublist s.scheduled
  taken : s.fetched.Perm (s.finished ++ s.running)
  all : s.scheduled.Perm (s.fetched ++ s.scheduler ++ s.dropped)

theorem TaskInv.account (h : TaskInv s) :
    s.scheduled.Perm (s.finished ++ s.running ++ s.scheduler ++ s.dropped) := by
  refine h.all.trans ?_
  rw [List.append_assoc, List.append_assoc _ s.scheduler]
  exact h.taken.append_right _

/-- The tasks that run, where a worker moves. -/
theorem running_move (hi : s.workers[i]? = some a) (b : WorkerPc τ) :
    ((s.move i b).running ++ a.task.toList).Perm (s.running ++ b.task.toList) :=
  filterMap_set_perm WorkerPc.task hi b

/-- A step that neither takes a task nor ends one. -/
theorem TaskInv.congr (h : TaskInv s) (hscheduler : t.scheduler = s.scheduler)
    (hscheduled : t.scheduled = s.scheduled) (hfetched : t.fetched = s.fetched)
    (hfinished : t.finished = s.finished) (hdropped : t.dropped = s.dropped)
    (hrunning : t.running.Perm s.running) : TaskInv t where
  order := by
    rw [hfetched, hscheduler, hscheduled]
    exact h.order
  taken := by
    rw [hfetched, hfinished]
    exact h.taken.trans (hrunning.symm.append_left _)
  all := by
    rw [hfetched, hscheduler, hscheduled, hdropped]
    exact h.all

/-- A worker without a task goes to a place without one. -/
theorem running_move_perm (hi : s.workers[i]? = some a) (ha : a.task = none) (hb : b.task = none) :
    (s.move i b).running.Perm s.running := by
  have hmove := running_move hi b
  rwa [ha, hb, Option.toList_none, List.append_nil, List.append_nil] at hmove

theorem running_notifyWorkers (s : Pool τ) : s.notifyWorkers.running = s.running := by
  unfold Pool.running Pool.notifyWorkers
  rw [List.filterMap_map]
  exact congrArg (fun f => List.filterMap f s.workers) (funext task_wake)

theorem running_grow (s : Pool τ) (created : Nat) : (s.grow created).running = s.running := by
  unfold Pool.running Pool.grow
  rw [List.filterMap_append]
  have hfresh : (List.replicate created (WorkerPc.fetch : WorkerPc τ)).filterMap WorkerPc.task
      = [] := by
    rw [List.filterMap_eq_nil_iff]
    intro pc hpc
    rw [(List.mem_replicate.mp hpc).2]
    rfl
  rw [hfresh, List.append_nil]

theorem taskInv_fetchTask (h : TaskInv s) (hi : s.workers[i]? = some a) (ha : a.task = none) :
    TaskInv (s.fetchTask i) := by
  unfold Pool.fetchTask
  split
  · split
    · exact h.congr rfl rfl rfl rfl rfl (running_move_perm hi ha rfl)
    · exact h.congr rfl rfl rfl rfl rfl (running_move_perm hi ha rfl)
  · rename_i task tasks hqueue
    have hrunning := running_move hi (.running task)
    rw [ha, Option.toList_none, List.append_nil] at hrunning
    refine ⟨?_, ?_, ?_⟩
    · have horder := h.order
      rw [hqueue, List.append_cons] at horder
      exact horder
    · change (s.fetched ++ [task]).Perm (s.finished ++ (s.move i (.running task)).running)
      refine (h.taken.append_right [task]).trans ?_
      rw [List.append_assoc]
      exact hrunning.symm.append_left _
    · have hall := h.all
      rw [hqueue, List.append_cons] at hall
      exact hall

theorem taskInv_removeWorker (h : TaskInv s) (hi : s.workers[i]? = some a) (ha : a.task = none) :
    TaskInv (s.removeWorker i) := by
  unfold Pool.removeWorker
  dsimp only
  split <;> exact h.congr rfl rfl rfl rfl rfl (running_move_perm hi ha rfl)

theorem taskInv_resize {count created : Nat} (h : TaskInv s)
    (hresize : s.resize count created = some t) : TaskInv t := by
  unfold Pool.resize at hresize
  split at hresize
  · cases hresize
    exact h
  · dsimp only at hresize
    split at hresize
    · split at hresize
      · cases hresize
        exact h.congr rfl rfl rfl rfl rfl (List.Perm.of_eq (running_grow s created))
      · cases hresize
    · cases hresize
      exact h.congr rfl rfl rfl rfl rfl (List.Perm.of_eq (running_notifyWorkers s))

theorem taskInv_schedule {task : τ} {woken : Option Nat} (h : TaskInv s)
    (hschedule : s.schedule task woken = some t) : TaskInv t := by
  have hpushed : TaskInv ({ s with
      scheduler := s.scheduler ++ [task], scheduled := s.scheduled ++ [task] } : Pool τ) := by
    refine ⟨?_, h.taken, ?_⟩
    · rw [← List.append_assoc]
      exact h.order.append (List.Sublist.refl _)
    · refine (h.all.append_right [task]).trans ?_
      simp only [List.append_assoc]
      exact (List.perm_append_comm.append_left _).append_left _
  unfold Pool.schedule at hschedule
  dsimp only at hschedule
  split at hschedule
  · split at hschedule
    · cases hschedule
    · cases hschedule
      exact hpushed
  · rename_i j
    split at hschedule
    · rename_i hwoken
      cases hschedule
      cases hj : s.workers[j]? with
      | none => rw [hj] at hwoken; cases hwoken
      | some pc =>
          have hpc : pc.task = none := by
            rw [hj] at hwoken
            cases pc <;> first | rfl | cases hwoken
          exact hpushed.congr rfl rfl rfl rfl rfl (running_move_perm hj hpc rfl)
    · cases hschedule

theorem taskInv_endTask {pc : WorkerPc τ} (h : TaskInv s) (hpc : pc.task = none)
    (hend : s.endTask i pc = some t) : TaskInv t := by
  unfold Pool.endTask at hend
  split at hend
  · rename_i task hi
    cases hend
    refine ⟨h.order, ?_, h.all⟩
    have hrunning := running_move hi pc
    rw [hpc, Option.toList_none, List.append_nil] at hrunning
    change s.fetched.Perm (s.finished ++ [task] ++ (s.move i pc).running)
    refine h.taken.trans ?_
    rw [List.append_assoc]
    exact (hrunning.symm.trans List.perm_append_comm).append_left _
  · cases hend

/-- Every step keeps the account. -/
theorem taskInv_step {act : PoolAction τ} (h : TaskInv s) (hstep : poolStep s act = some t) :
    TaskInv t := by
  cases act with
  | schedule task woken => exact taskInv_schedule h hstep
  | clear =>
      cases hstep
      refine ⟨?_, h.taken, ?_⟩
      · change (s.fetched ++ []).Sublist s.scheduled
        rw [List.append_nil]
        exact (List.sublist_append_left _ _).trans h.order
      · refine h.all.trans ?_
        change (s.fetched ++ s.scheduler ++ s.dropped).Perm
          (s.fetched ++ [] ++ (s.dropped ++ s.scheduler))
        rw [List.append_nil, List.append_assoc]
        exact List.perm_append_comm.append_left _
  | resize count created => exact taskInv_resize h hstep
  | call i call =>
      simp only [poolStep, Pool.call] at hstep
      split at hstep
      · cases hstep
        exact h.congr rfl rfl rfl rfl rfl (List.Perm.refl _)
      · cases hstep
  | caller i =>
      have htest {u : Pool τ} (hu : TaskInv u) : TaskInv (u.terminateTest i) := by
        unfold Pool.terminateTest
        split <;> exact hu.congr rfl rfl rfl rfl rfl (List.Perm.refl _)
      simp only [poolStep, Pool.callerStep] at hstep
      split at hstep
      · cases hstep
        exact h.congr rfl rfl rfl rfl rfl (List.Perm.refl _)
      · cases hstep
        have hwoken : TaskInv s.requestTerminate :=
          h.congr rfl rfl rfl rfl rfl (List.Perm.of_eq (running_notifyWorkers s))
        exact htest hwoken
      · cases hstep
        exact htest h
      · cases hstep
  | worker i =>
      simp only [poolStep, Pool.workerStep] at hstep
      split at hstep
      · rename_i hi
        cases hstep
        unfold Pool.executeTask
        split
        · exact h.congr rfl rfl rfl rfl rfl (running_move_perm hi rfl rfl)
        · exact taskInv_fetchTask h hi rfl
      · rename_i hi
        cases hstep
        have hawake : TaskInv ({ s with activeWorkerCount := s.activeWorkerCount + 1 } : Pool τ) :=
          h.congr rfl rfl rfl rfl rfl (List.Perm.refl _)
        exact taskInv_fetchTask hawake hi rfl
      · rename_i hi
        cases hstep
        exact taskInv_removeWorker h hi rfl
      · cases hstep
  | returns i | throws i => exact taskInv_endTask h rfl hstep
  | died i created =>
      simp only [poolStep, Pool.workerDied] at hstep
      split at hstep
      · rename_i hi
        have hremoved := taskInv_removeWorker h hi rfl
        split at hstep
        · cases hstep
          exact hremoved
        · exact taskInv_resize hremoved hstep
      · cases hstep
  | wakeWorker i =>
      obtain ⟨pc, hi, rfl⟩ := Option.map_eq_some_iff.mp hstep
      have hmove := running_move hi pc.wake
      rw [task_wake] at hmove
      exact h.congr rfl rfl rfl rfl rfl ((List.perm_append_right_iff _).mp hmove)
  | wakeCaller i =>
      obtain ⟨pc, -, rfl⟩ := Option.map_eq_some_iff.mp hstep
      exact h.congr rfl rfl rfl rfl rfl (List.Perm.refl _)

theorem taskInv_start (users : Nat) : TaskInv (Pool.start τ users) :=
  ⟨List.Sublist.refl _, List.Perm.refl _, List.Perm.refl _⟩

/-! ### Runs -/

/-- All that is known of a pool. -/
structure PoolInv (s : Pool τ) : Prop where
  crew : CrewInv s
  callers : CallerInv s
  tasks : TaskInv s

theorem poolInv_step {act : PoolAction τ} (h : PoolInv s) (hstep : poolStep s act = some t) :
    PoolInv t :=
  ⟨crewInv_step h.crew hstep, callerInv_step h.crew h.callers hstep, taskInv_step h.tasks hstep⟩

theorem poolInv_start (users : Nat) : PoolInv (Pool.start τ users) :=
  ⟨crewInv_start users, callerInv_start users, taskInv_start users⟩

theorem poolInv_run {users : Nat} {acts : List (PoolAction τ)}
    (h : run poolStep acts (Pool.start τ users) = some s) : PoolInv s :=
  run_invariant (fun _ _ _ => poolInv_step) (poolInv_start users) h

/-- The task that an action schedules. -/
def PoolAction.task : PoolAction τ → Option τ
  | .schedule task _ => some task
  | _ => none

/-- The tasks that `clear` removes. -/
def PoolAction.cleared (s : Pool τ) : PoolAction τ → List τ
  | .clear => s.scheduler
  | _ => []

/-- The task whose call ends. -/
def PoolAction.over (s : Pool τ) : PoolAction τ → List τ
  | .returns i | .throws i => ((s.workers[i]?).bind WorkerPc.task).toList
  | _ => []

/-- A step that neither schedules a task, drops one, nor ends one. -/
def SameGhosts (s t : Pool τ) : Prop :=
  t.scheduled = s.scheduled ∧ t.dropped = s.dropped ∧ t.finished = s.finished

theorem sameGhosts_fetchTask (s : Pool τ) (i : Nat) : SameGhosts s (s.fetchTask i) := by
  unfold Pool.fetchTask
  split
  · split <;> exact ⟨rfl, rfl, rfl⟩
  · exact ⟨rfl, rfl, rfl⟩

theorem sameGhosts_removeWorker (s : Pool τ) (i : Nat) : SameGhosts s (s.removeWorker i) := by
  unfold Pool.removeWorker
  dsimp only
  split <;> exact ⟨rfl, rfl, rfl⟩

theorem sameGhosts_resize {count created : Nat} (h : s.resize count created = some t) :
    SameGhosts s t := by
  unfold Pool.resize at h
  dsimp only at h
  split at h
  · cases h
    exact ⟨rfl, rfl, rfl⟩
  · split at h
    · split at h
      · cases h
        exact ⟨rfl, rfl, rfl⟩
      · cases h
    · cases h
      exact ⟨rfl, rfl, rfl⟩

theorem sameGhosts_terminateTest (s : Pool τ) (i : Nat) : SameGhosts s (s.terminateTest i) := by
  unfold Pool.terminateTest
  split <;> exact ⟨rfl, rfl, rfl⟩

/-- Only `schedule` adds a task, only `clear` removes one, and only a return or an exception ends
one. -/
theorem ghosts_step {act : PoolAction τ} (h : poolStep s act = some t) :
    t.scheduled = s.scheduled ++ act.task.toList ∧ t.dropped = s.dropped ++ act.cleared s ∧
      t.finished = s.finished ++ act.over s := by
  have hsame {act : PoolAction τ} (hst : SameGhosts s t) (htask : act.task = none)
      (hcleared : act.cleared s = []) (hover : act.over s = []) :
      t.scheduled = s.scheduled ++ act.task.toList ∧ t.dropped = s.dropped ++ act.cleared s ∧
        t.finished = s.finished ++ act.over s := by
    rw [htask, hcleared, hover, Option.toList_none, List.append_nil, List.append_nil,
      List.append_nil]
    exact hst
  cases act with
  | schedule task woken =>
      simp only [poolStep, Pool.schedule] at h
      split at h <;> split at h <;> cases h <;>
        exact ⟨rfl, (List.append_nil _).symm, (List.append_nil _).symm⟩
  | clear =>
      cases h
      exact ⟨(List.append_nil _).symm, rfl, (List.append_nil _).symm⟩
  | resize count created => exact hsame (sameGhosts_resize h) rfl rfl rfl
  | call i call =>
      simp only [poolStep, Pool.call] at h
      split at h <;> cases h
      exact hsame ⟨rfl, rfl, rfl⟩ rfl rfl rfl
  | caller i =>
      simp only [poolStep, Pool.callerStep] at h
      split at h <;> cases h
      · exact hsame ⟨rfl, rfl, rfl⟩ rfl rfl rfl
      · exact hsame (sameGhosts_terminateTest s.requestTerminate i) rfl rfl rfl
      · exact hsame (sameGhosts_terminateTest s i) rfl rfl rfl
  | worker i =>
      simp only [poolStep, Pool.workerStep] at h
      split at h <;> cases h
      · refine hsame ?_ rfl rfl rfl
        unfold Pool.executeTask
        split
        · exact ⟨rfl, rfl, rfl⟩
        · exact sameGhosts_fetchTask s i
      · exact hsame (sameGhosts_fetchTask { s with activeWorkerCount := s.activeWorkerCount + 1 } i)
          rfl rfl rfl
      · exact hsame (sameGhosts_removeWorker s i) rfl rfl rfl
  | returns i | throws i =>
      simp only [poolStep, Pool.endTask] at h
      split at h <;> cases h
      rename_i task hi
      refine ⟨(List.append_nil _).symm, (List.append_nil _).symm, ?_⟩
      simp only [PoolAction.over, hi]
      rfl
  | died i created =>
      simp only [poolStep, Pool.workerDied] at h
      have hremoved := sameGhosts_removeWorker s i
      split at h
      · split at h
        · cases h
          exact hsame hremoved rfl rfl rfl
        · obtain ⟨hscheduled, hdropped, hfinished⟩ := sameGhosts_resize h
          exact hsame ⟨hscheduled.trans hremoved.1, hdropped.trans hremoved.2.1,
            hfinished.trans hremoved.2.2⟩ rfl rfl rfl
      · cases h
  | wakeWorker i | wakeCaller i =>
      obtain ⟨pc, -, rfl⟩ := Option.map_eq_some_iff.mp h
      exact hsame ⟨rfl, rfl, rfl⟩ rfl rfl rfl

theorem scheduled_run {acts : List (PoolAction τ)} (h : run poolStep acts s = some t) :
    t.scheduled = s.scheduled ++ acts.filterMap PoolAction.task := by
  induction acts generalizing s with
  | nil =>
      cases h
      exact (List.append_nil _).symm
  | cons act acts ih =>
      obtain ⟨u, hu, hut⟩ := run_cons_eq_some.mp h
      rw [ih hut, (ghosts_step hu).1, List.append_assoc, List.filterMap_cons]
      cases act.task <;> rfl

/-- Where nobody calls `clear`, no task is dropped. -/
theorem dropped_run {acts : List (PoolAction τ)} (hclear : .clear ∉ acts)
    (h : run poolStep acts s = some t) : t.dropped = s.dropped := by
  induction acts generalizing s with
  | nil =>
      cases h
      rfl
  | cons act acts ih =>
      obtain ⟨u, hu, hut⟩ := run_cons_eq_some.mp h
      rw [List.mem_cons, not_or] at hclear
      rw [ih hclear.2 hut, (ghosts_step hu).2.1]
      cases act <;> first | exact List.append_nil _ | exact absurd rfl hclear.1

/-- A task that was scheduled is over, runs, is pending, or was dropped, and it is only one of
these; the tasks start in the order in which they were scheduled, and none is left out where nobody
calls `clear`. -/
theorem tasks_accounted {users : Nat} {acts : List (PoolAction τ)}
    (h : run poolStep acts (Pool.start τ users) = some s) :
    (acts.filterMap PoolAction.task).Perm (s.finished ++ s.running ++ s.scheduler ++ s.dropped) ∧
      s.fetched.Perm (s.finished ++ s.running) ∧
      (s.fetched ++ s.scheduler).Sublist (acts.filterMap PoolAction.task) ∧
      (.clear ∉ acts → s.fetched ++ s.scheduler = acts.filterMap PoolAction.task) := by
  have htasks := (poolInv_run h).tasks
  have hscheduled : s.scheduled = acts.filterMap PoolAction.task := scheduled_run h
  rw [← hscheduled]
  refine ⟨htasks.account, htasks.taken, htasks.order, fun hclear => ?_⟩
  have hdropped : s.dropped = [] := dropped_run hclear h
  refine htasks.order.eq_of_length ?_
  have hlength := htasks.all.length_eq
  rw [hdropped, List.append_nil] at hlength
  exact hlength.symm

theorem tasks_accounted_two : ∃ acts : List (PoolAction Char), ∃ s,
    run poolStep acts (Pool.start Char 1) = some s ∧ s.finished = ['b'] ∧ s.running = ['a'] ∧
      acts.filterMap PoolAction.task = ['a', 'b'] ∧
      (acts.filterMap PoolAction.task).Perm
        (s.finished ++ s.running ++ s.scheduler ++ s.dropped) := by
  let acts : List (PoolAction Char) := [.resize 2 2, .schedule 'a' none, .schedule 'b' none,
    .worker 1, .worker 0, .returns 0]
  cases hrun : run poolStep acts (Pool.start Char 1) with
  | none => exact absurd hrun (by decide)
  | some s =>
      refine ⟨acts, s, hrun, ?_, ?_, rfl, (tasks_accounted hrun).1⟩ <;>
        (cases hrun; rfl)

/-- Where no worker can make a step, none is on its way. -/
theorem workers_at_rest (hrest : ∀ i, s.workerStep i = none) {pc : WorkerPc τ}
    (hpc : pc ∈ s.workers) : pc ≠ .fetch ∧ pc ≠ .notified ∧ pc ≠ .leaving := by
  obtain ⟨i, hi⟩ := List.mem_iff_getElem?.mp hpc
  have hnone := hrest i
  refine ⟨?_, ?_, ?_⟩ <;> rintro rfl <;> rw [Pool.workerStep, hi] at hnone <;> cases hnone

/-- No wake-up is lost. While a worker sleeps, every pending task has a worker of its own that was
woken, and no worker sleeps that is one too many. So where no worker is on its way and a task is
pending, every worker is busy with a task, or with its exception. -/
theorem pending_tasks_served {users : Nat} {acts : List (PoolAction τ)}
    (h : run poolStep acts (Pool.start τ users) = some s) :
    (.waiting ∈ s.workers → s.scheduler.length ≤ s.workers.countP WorkerPc.isNotified ∧
      s.workerCount ≤ s.targetWorkerCount) ∧
      (s.scheduler ≠ [] → (∀ i, s.workerStep i = none) →
        ∀ pc ∈ s.workers, (∃ task, pc = .running task) ∨ pc = .dying ∨ pc = .ended) := by
  have hcrew := (poolInv_run h).crew
  refine ⟨fun hwaiting => ⟨hcrew.promised hwaiting, hcrew.needed hwaiting⟩, ?_⟩
  intro hpending hrest pc hpc
  have hnotified : s.workers.countP WorkerPc.isNotified = 0 := by
    rw [List.countP_eq_zero]
    intro pc hmem hisNotified
    cases pc <;> first | exact (workers_at_rest hrest hmem).2.1 rfl | cases hisNotified
  obtain ⟨hfetch, hnot, hleaving⟩ := workers_at_rest hrest hpc
  cases pc with
  | running task => exact Or.inl ⟨task, rfl⟩
  | dying => exact Or.inr (Or.inl rfl)
  | ended => exact Or.inr (Or.inr rfl)
  | waiting =>
      have hpromised := hcrew.promised hpc
      have hlength := List.length_pos_iff.mpr hpending
      omega
  | fetch => exact absurd rfl hfetch
  | notified => exact absurd rfl hnot
  | leaving => exact absurd rfl hleaving

theorem pending_tasks_served_two : ∃ acts : List (PoolAction Char), ∃ s,
    run poolStep acts (Pool.start Char 1) = some s ∧ s.scheduler = ['b'] ∧
      ∀ pc ∈ s.workers, (∃ task, pc = .running task) ∨ pc = .dying ∨ pc = .ended := by
  let acts : List (PoolAction Char) := [.resize 1 1, .worker 0, .schedule 'a' (some 0),
    .schedule 'b' none, .worker 0]
  cases hrun : run poolStep acts (Pool.start Char 1) with
  | none => exact absurd hrun (by decide)
  | some s =>
      have hworkers : s.workers = [.running 'a'] := by cases hrun; rfl
      have hqueue : s.scheduler = ['b'] := by cases hrun; rfl
      refine ⟨acts, s, hrun, hqueue, (pending_tasks_served hrun).2 (by rw [hqueue]; decide) ?_⟩
      rintro (- | i)
      · rw [Pool.workerStep, hworkers]
        rfl
      · rw [Pool.workerStep, hworkers]
        rfl

/-- As many tasks run as there are active workers, at most. -/
theorem running_length_le (h : CrewInv s) : s.running.length ≤ s.activeWorkerCount := by
  rw [h.active]
  unfold Pool.running
  induction s.workers with
  | nil => exact Nat.le_refl _
  | cons pc workers ih =>
      rw [List.filterMap_cons, List.countP_cons]
      cases pc <;> simp [WorkerPc.task, WorkerPc.active] <;> omega

/-- When `wait` returns, no more tasks run and are pending than its threshold says; when it has
none, every task that was scheduled is over, or was dropped. The same holds where `shutdown` goes on
to terminate the workers. -/
theorem wait_returns {users : Nat} {acts : List (PoolAction τ)} {call : WaitCall}
    (h : run poolStep acts (Pool.start τ users) = some s) (hi : s.callers[i]? = some (.test call))
    (hstep : s.callerStep i = some t) (hreturns : t.callers[i]? ≠ some (.blocked call)) :
    s.running.length + s.scheduler.length ≤ call.threshold ∧
      (call.threshold = 0 →
        (acts.filterMap PoolAction.task).Perm (s.finished ++ s.dropped)) := by
  have hinv := poolInv_run h
  have hlt := (List.getElem?_eq_some_iff.mp hi).1
  have hidle : s.activeWorkerCount + s.scheduler.length ≤ call.threshold := by
    rw [← Nat.not_lt, ← busy_iff]
    intro hbusy
    rw [Pool.callerStep, hi] at hstep
    cases hstep
    apply hreturns
    rw [if_pos hbusy]
    exact List.getElem?_set_self hlt
  have hrunning := running_length_le hinv.crew
  refine ⟨by omega, fun hzero => ?_⟩
  have hnone : s.running = [] := List.eq_nil_of_length_eq_zero (by omega)
  have hempty : s.scheduler = [] := List.eq_nil_of_length_eq_zero (by omega)
  have hscheduled : s.scheduled = acts.filterMap PoolAction.task := scheduled_run h
  have haccount := hinv.tasks.account
  rw [hscheduled, hnone, hempty, List.append_nil, List.append_nil] at haccount
  exact haccount

theorem wait_returns_one : ∃ acts : List (PoolAction Char), ∃ s t : Pool Char,
    run poolStep acts (Pool.start Char 1) = some s ∧ s.callerStep 0 = some t ∧
      t.callers = [.outside] ∧
      (acts.filterMap PoolAction.task).Perm (s.finished ++ s.dropped) := by
  let acts : List (PoolAction Char) := [.resize 1 1, .schedule 'a' none, .call 0 (.wait 0),
    .caller 0, .worker 0, .returns 0, .worker 0]
  cases hrun : run poolStep acts (Pool.start Char 1) with
  | none => exact absurd hrun (by decide)
  | some s =>
      have hcallers : s.callers = [.test (.wait 0)] := by cases hrun; rfl
      cases hstep : s.callerStep 0 with
      | none =>
          cases hrun
          exact absurd hstep (by decide)
      | some t =>
          have hout : t.callers = [.outside] := by cases hrun; cases hstep; rfl
          refine ⟨acts, s, t, hrun, hstep, hout, ?_⟩
          refine (wait_returns hrun (by rw [hcallers]; rfl) hstep ?_).2 rfl
          rw [hout]
          decide

theorem not_stirring (hrest : ∀ i, s.workerStep i = none) (hrunning : s.running = [])
    (hdying : .dying ∉ s.workers) : ¬s.Stirring := by
  rintro ⟨pc, hpc, hawake⟩
  obtain ⟨hfetch, hnotified, hleaving⟩ := workers_at_rest hrest hpc
  cases pc with
  | running task => cases List.filterMap_eq_nil_iff.mp hrunning _ hpc
  | dying => exact hdying hpc
  | fetch => exact hfetch rfl
  | notified => exact hnotified rfl
  | leaving => exact hleaving rfl
  | waiting | ended => rcases hawake with hawake | hawake <;> cases hawake

/-- Nobody waits for workers that have nothing to do. Where no worker is on its way, no task runs
and none has thrown, a thread sleeps in `wait` or `shutdown` only if the pool has no worker any
more, and nobody sleeps in `terminate_all_workers`. -/
theorem no_caller_stranded {users : Nat} {acts : List (PoolAction τ)}
    (h : run poolStep acts (Pool.start τ users) = some s) (hrest : ∀ i, s.workerStep i = none)
    (hrunning : s.running = []) (hdying : .dying ∉ s.workers) :
    (∀ call, .blocked call ∈ s.callers → s.workerCount = 0 ∧
      (call.threshold < s.scheduler.length ∨ .clear ∈ acts)) ∧
      .terminateBlocked ∉ s.callers := by
  have hinv := poolInv_run h
  have hidle := not_stirring hrest hrunning hdying
  refine ⟨fun call hblocked => ?_, fun hblocked => hidle ?_⟩
  · obtain ⟨hnone, hpending⟩ := (hinv.callers.blocked call hblocked).resolve_left hidle
    refine ⟨hnone, hpending.imp_right fun hdropped => ?_⟩
    by_contra hclear
    exact hdropped (dropped_run hclear h)
  · have hactive := hinv.callers.terminating hblocked
    rw [hinv.crew.active] at hactive
    exact stirring_iff.mpr (Or.inl hactive)

/-- A pool without workers. -/
theorem no_caller_stranded_empty : ∃ acts : List (PoolAction Char), ∃ s,
    run poolStep acts (Pool.start Char 1) = some s ∧ s.callers = [.blocked (.wait 0)] ∧
      s.workerCount = 0 := by
  let acts : List (PoolAction Char) := [.schedule 'a' none, .call 0 (.wait 0), .caller 0]
  cases hrun : run poolStep acts (Pool.start Char 1) with
  | none => exact absurd hrun (by decide)
  | some s =>
      have hworkers : s.workers = [] := by cases hrun; rfl
      have hcallers : s.callers = [.blocked (.wait 0)] := by cases hrun; rfl
      have hrest : ∀ i, s.workerStep i = none := by
        intro i
        rw [Pool.workerStep, hworkers]
        rfl
      have hrunning : s.running = [] := by
        rw [Pool.running, hworkers]
        rfl
      refine ⟨acts, s, hrun, hcallers, ?_⟩
      have hdying : .dying ∉ s.workers := by
        rw [hworkers]
        exact List.not_mem_nil
      refine ((no_caller_stranded hrun hrest hrunning hdying).1 (.wait 0) ?_).1
      rw [hcallers]
      exact List.mem_singleton_self _

end Monitoring.Threadpool
