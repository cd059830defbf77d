import Monitoring.Proofs.PoolTasks

/-!
# `Monitoring.Proofs.PoolEnds`: the pool comes to its end

No invariant of `Monitoring.Proofs.PoolTasks` says that anything happens. Here the threads of the
pool are left to themselves: nothing new is scheduled or called, and the workers, the callers and
the tasks that return take all the steps that they can. Each of these steps lowers `Pool.work`, so
there are not many of them, in any order; and when none is left, all tasks are over and all calls
have returned (`pool_drains`). A `shutdown` among them has ended all the workers.
-/

set_option autoImplicit false

namespace Monitoring.Threadpool

open Monitoring.Lib

variable {τ : Type} {s t : Pool τ} {i : Nat}

/-- A step of a worker or of a caller, or the return of a task. -/
def PoolAction.own : PoolAction τ → Prop
  | .caller _ | .worker _ | .returns _ => True
  | _ => False

/-! ### The work that is left -/

/-- What a worker may still do until it sleeps. On its way there it wakes the callers. -/
def WorkerPc.work (users : Nat) : WorkerPc τ → Nat
  | .running _ => users + 3
  | .fetch | .notified => users + 2
  | .leaving => users + 1
  | .waiting | .dying | .ended => 0

/-- What a caller may still do until it sleeps, where `crew` is the work of workers that are all
awake. -/
def CallerPc.work (crew : Nat) : CallerPc → Nat
  | .test .shutdown => crew + 4
  | .blocked .shutdown => crew + 3
  | .terminate => crew + 2
  | .test (.wait _) | .terminateTest => 1
  | .outside | .blocked (.wait _) | .terminateBlocked => 0

/-- The steps that are left, at most. -/
def Pool.work (s : Pool τ) : Nat :=
  2 * s.scheduler.length + (s.workers.map (WorkerPc.work s.callers.length)).sum
    + (s.callers.map (CallerPc.work (s.workers.length * (s.callers.length + 2)))).sum

section
variable {a b : WorkerPc τ} {pc pc' : CallerPc}

theorem work_wake_worker (users : Nat) (pc : WorkerPc τ) :
    pc.wake.work users ≤ pc.work users + (users + 2) := by
  cases pc <;> simp [WorkerPc.wake, WorkerPc.work]

theorem work_wake_caller (crew : Nat) (pc : CallerPc) : pc.wake.work crew ≤ pc.work crew + 1 := by
  cases pc with
  | blocked call => cases call <;> simp [CallerPc.wake, CallerPc.work]
  | _ => simp [CallerPc.wake, CallerPc.work]

/-- A worker moves, and the callers stay where they are. -/
theorem work_lt_of_move (hi : s.workers[i]? = some a) (hworkers : t.workers = s.workers.set i b)
    (hcallers : t.callers = s.callers)
    (hlt : 2 * t.scheduler.length + b.work s.callers.length
      < 2 * s.scheduler.length + a.work s.callers.length) : t.work < s.work := by
  have hset := sum_map_set_add (WorkerPc.work s.callers.length) hi b
  unfold Pool.work
  rw [hworkers, hcallers, List.length_set]
  omega

/-- A worker moves, and wakes the callers. -/
theorem work_lt_of_notify (hi : s.workers[i]? = some a) (hworkers : t.workers = s.workers.set i b)
    (hcallers : t.callers = s.callers.map CallerPc.wake)
    (hlt : 2 * t.scheduler.length + b.work s.callers.length + s.callers.length
      < 2 * s.scheduler.length + a.work s.callers.length) : t.work < s.work := by
  have hset := sum_map_set_add (WorkerPc.work s.callers.length) hi b
  have hwoken := sum_map_map_le _
    (work_wake_caller (s.workers.length * (s.callers.length + 2))) s.callers
  rw [Nat.mul_one] at hwoken
  unfold Pool.work
  rw [hworkers, hcallers, List.length_set, List.length_map]
  omega

/-- A caller moves, and the workers stay where they are. -/
theorem work_lt_of_moveCaller (hi : s.callers[i]? = some pc)
    (hcallers : t.callers = s.callers.set i pc') (hworkers : t.workers = s.workers)
    (hscheduler : t.scheduler = s.scheduler)
    (hlt : pc'.work (s.workers.length * (s.callers.length + 2))
      < pc.work (s.workers.length * (s.callers.length + 2))) : t.work < s.work := by
  have hset := sum_map_set_add (CallerPc.work (s.workers.length * (s.callers.length + 2))) hi pc'
  unfold Pool.work
  rw [hworkers, hcallers, hscheduler, List.length_set]
  omega

theorem work_fetchTask (hi : s.workers[i]? = some a) (ha : a = .fetch ∨ a = .notified) :
    (s.fetchTask i).work < s.work := by
  have hwork : a.work s.callers.length = s.callers.length + 2 := by rcases ha with rfl | rfl <;> rfl
  unfold Pool.fetchTask
  split
  · rename_i hqueue
    split
    · refine work_lt_of_move hi rfl rfl ?_
      rw [hwork]
      exact Nat.add_lt_add_left (Nat.lt_succ_self _) _
    · refine work_lt_of_notify hi rfl rfl ?_
      rw [hwork]
      change 2 * s.scheduler.length + 0 + s.callers.length < _
      omega
  · rename_i task tasks hqueue
    refine work_lt_of_move (b := .running task) hi rfl rfl ?_
    rw [hwork, hqueue, List.length_cons]
    change 2 * tasks.length + (s.callers.length + 3) < _
    omega

theorem work_removeWorker (hi : s.workers[i]? = some .leaving) :
    (s.removeWorker i).work < s.work := by
  have hlt : 2 * s.scheduler.length + 0 + s.callers.length
      < 2 * s.scheduler.length + (s.callers.length + 1) := by omega
  unfold Pool.removeWorker
  dsimp only
  split <;> exact work_lt_of_notify (b := .ended) hi rfl rfl hlt

theorem work_terminateTest (hi : s.callers[i]? = some pc)
    (hpc : 0 < pc.work (s.workers.length * (s.callers.length + 2))) :
    (s.terminateTest i).work < s.work := by
  unfold Pool.terminateTest
  split
  · refine work_lt_of_moveCaller hi rfl rfl rfl ?_
    exact hpc
  · refine work_lt_of_moveCaller hi rfl rfl rfl ?_
    exact hpc

/-- All workers wake, and this is less than what the caller does not have to do any more. -/
theorem work_terminate (hi : s.callers[i]? = some .terminate) :
    (s.requestTerminate.terminateTest i).work < s.work := by
  have hwoken := sum_map_map_le _ (work_wake_worker s.callers.length) s.workers
  have hset (pc : CallerPc) :=
    sum_map_set_add (CallerPc.work (s.workers.length * (s.callers.length + 2))) hi pc
  have hgo (pc : CallerPc) (hpc : pc.work (s.workers.length * (s.callers.length + 2)) = 0)
      (u : Pool τ) (hworkers : u.workers = s.workers.map WorkerPc.wake)
      (hcallers : u.callers = s.callers.set i pc) (hscheduler : u.scheduler = s.scheduler) :
      u.work < s.work := by
    have hset := hset pc
    rw [hpc] at hset
    unfold Pool.work
    rw [hworkers, hcallers, hscheduler, List.length_set, List.length_map]
    simp only [CallerPc.work] at hset ⊢
    omega
  unfold Pool.terminateTest
  split
  · exact hgo .terminateBlocked rfl _ rfl rfl rfl
  · exact hgo .outside rfl _ rfl rfl rfl

/-- Every step of the pool's own threads leaves less to do. -/
theorem work_step {act : PoolAction τ} (hown : act.own) (hstep : poolStep s act = some t) :
    t.work < s.work := by
  cases act with
  | caller i =>
      simp only [poolStep, Pool.callerStep] at hstep
      split at hstep
      · rename_i call hi
        cases hstep
        refine work_lt_of_moveCaller hi rfl rfl rfl ?_
        split
        · cases call <;> exact Nat.lt_succ_self _
        · split
          · rename_i hshutdown
            rw [hshutdown]
            exact Nat.lt_succ_of_lt (Nat.lt_succ_self _)
          · cases call <;> exact Nat.succ_pos _
      · rename_i hi
        cases hstep
        exact work_terminate hi
      · rename_i hi
        cases hstep
        exact work_terminateTest hi Nat.one_pos
      · cases hstep
  | worker i =>
      simp only [poolStep, Pool.workerStep] at hstep
      split at hstep
      · rename_i hi
        cases hstep
        unfold Pool.executeTask
        split
        · refine work_lt_of_move (b := .leaving) hi rfl rfl ?_
          exact Nat.add_lt_add_left (Nat.lt_succ_self _) _
        · exact work_fetchTask hi (Or.inl rfl)
      · rename_i hi
        cases hstep
        exact work_fetchTask (s := { s with activeWorkerCount := s.activeWorkerCount + 1 }) hi
          (Or.inr rfl)
      · rename_i hi
        cases hstep
        exact work_removeWorker hi
      · cases hstep
  | returns i =>
      simp only [poolStep, Pool.endTask] at hstep
      split at hstep
      · rename_i task hi
        cases hstep
        refine work_lt_of_move (b := .fetch) hi rfl rfl ?_
        exact Nat.add_lt_add_left (Nat.lt_succ_self _) _
      · cases hstep
  | _ => cases hown

end

/-! ### States from which the tasks come to an end -/

/-- No worker has an exception; and while a task is pending, there are workers, none of them too
many or about to leave, and nobody is about to terminate them. -/
structure Calm (s : Pool τ) : Prop where
  dying : .dying ∉ s.workers
  staffed : s.scheduler ≠ [] → 0 < s.workerCount ∧ s.workerCount ≤ s.targetWorkerCount ∧
    .leaving ∉ s.workers ∧ .terminate ∉ s.callers

section
variable {b : WorkerPc τ} {pc : CallerPc}

theorem Calm.move (h : Calm s) (hworkers : t.workers = s.workers.set i b) (hdying : b ≠ .dying)
    (hqueue : t.scheduler = [] ∨ (s.scheduler ≠ [] ∧ t.workerCount = s.workerCount ∧
      t.targetWorkerCount = s.targetWorkerCount ∧ t.callers = s.callers ∧ b ≠ .leaving)) :
    Calm t where
  dying hmem := by
    rw [hworkers] at hmem
    exact (List.mem_or_eq_of_mem_set hmem).elim h.dying fun heq => hdying heq.symm
  staffed hpending := by
    obtain ⟨hne, hcount, htarget, hcallers, hleaving⟩ := hqueue.resolve_left hpending
    obtain ⟨hpos, hle, hnone, hterminate⟩ := h.staffed hne
    rw [hcount, htarget, hworkers, hcallers]
    refine ⟨hpos, hle, fun hmem => ?_, hterminate⟩
    exact (List.mem_or_eq_of_mem_set hmem).elim hnone fun heq => hleaving heq.symm

theorem Calm.moveCaller (h : Calm s) (i : Nat) (hpc : s.scheduler ≠ [] → pc ≠ .terminate) :
    Calm (s.moveCaller i pc) where
  dying := h.dying
  staffed hpending := by
    obtain ⟨hpos, hle, hnone, hterminate⟩ := h.staffed hpending
    refine ⟨hpos, hle, hnone, fun hmem => ?_⟩
    exact (List.mem_or_eq_of_mem_set hmem).elim hterminate fun heq => hpc hpending heq.symm

theorem calm_fetchTask (h : Calm s) : Calm (s.fetchTask i) := by
  unfold Pool.fetchTask
  split
  · rename_i hqueue
    split
    · exact h.move rfl (by rintro ⟨⟩) (Or.inl hqueue)
    · exact h.move rfl (by rintro ⟨⟩) (Or.inl hqueue)
  · rename_i task tasks hqueue
    refine h.move rfl (by rintro ⟨⟩) (Or.inr ⟨?_, rfl, rfl, rfl, by rintro ⟨⟩⟩)
    rw [hqueue]
    exact List.cons_ne_nil _ _

theorem calm_terminateTest (h : Calm s) (i : Nat) : Calm (s.terminateTest i) := by
  unfold Pool.terminateTest
  split
  · exact h.moveCaller i fun _ => by rintro ⟨⟩
  · have hjoined : Calm ({ s with terminatedWorkers := [] } : Pool τ) := ⟨h.dying, h.staffed⟩
    exact hjoined.moveCaller i fun _ => by rintro ⟨⟩

/-- The pool's own threads keep it so. -/
theorem calm_step {act : PoolAction τ} (h : Calm s) (hown : act.own)
    (hstep : poolStep s act = some t) : Calm t := by
  cases act with
  | caller i =>
      simp only [poolStep, Pool.callerStep] at hstep
      split at hstep
      · rename_i call hi
        cases hstep
        refine h.moveCaller i fun hpending => ?_
        split
        · rintro ⟨⟩
        · rename_i hidle
          split
          · rename_i hshutdown
            refine absurd (busy_iff.mpr ?_) hidle
            rw [hshutdown]
            exact Nat.add_pos_right _ (List.length_pos_iff.mpr hpending)
          · rintro ⟨⟩
      · rename_i hi
        cases hstep
        refine calm_terminateTest ⟨fun hmem => ?_, fun hpending => ?_⟩ i
        · obtain ⟨pc, hpc, hwake⟩ := List.mem_map.mp hmem
          cases pc <;> cases hwake
          exact h.dying hpc
        · exact absurd (List.mem_of_getElem? hi) (h.staffed hpending).2.2.2
      · cases hstep
        exact calm_terminateTest h i
      · cases hstep
  | worker i =>
      simp only [poolStep, Pool.workerStep] at hstep
      split at hstep
      · cases hstep
        unfold Pool.executeTask
        split
        · rename_i hsurplus
          refine h.move rfl (by rintro ⟨⟩) (Or.inl ?_)
          by_contra hpending
          exact absurd hsurplus (Nat.not_lt.mpr (h.staffed hpending).2.1)
        · exact calm_fetchTask h
      · cases hstep
        have hawake : Calm ({ s with activeWorkerCount := s.activeWorkerCount + 1 } : Pool τ) :=
          ⟨h.dying, h.staffed⟩
        exact calm_fetchTask hawake
      · rename_i hi
        cases hstep
        have hqueue : s.scheduler = [] := by
          by_contra hpending
          exact (h.staffed hpending).2.2.1 (List.mem_of_getElem? hi)
        unfold Pool.removeWorker
        dsimp only
        split <;> exact h.move rfl (by rintro ⟨⟩) (Or.inl hqueue)
      · cases hstep
  | returns i =>
      simp only [poolStep, Pool.endTask] at hstep
      split at hstep
      · cases hstep
        by_cases hqueue : s.scheduler = []
        · exact h.move rfl (by rintro ⟨⟩) (Or.inl hqueue)
        · exact h.move rfl (by rintro ⟨⟩) (Or.inr ⟨hqueue, rfl, rfl, rfl, by rintro ⟨⟩⟩)
      · cases hstep
  | _ => cases hown

end

/-! ### A `shutdown` -/

/-- The caller is in `shutdown`, and has not told the workers to terminate yet. -/
def CallerPc.closing : CallerPc → Bool
  | .test .shutdown | .blocked .shutdown | .terminate => true
  | _ => false

/-- A thread has called `shutdown`. -/
def Pool.Closing (s : Pool τ) : Prop :=
  s.terminateAllWorkers = true ∨ ∃ pc ∈ s.callers, pc.closing = true

/-- Workers that shall terminate are one too many. -/
def Pool.Closed (s : Pool τ) : Prop := s.terminateAllWorkers = true → s.targetWorkerCount = 0

section
variable {b : WorkerPc τ} {pc : CallerPc}

theorem closed_resize {count created : Nat} (h : s.Closed)
    (hresize : s.resize count created = some t) : t.Closed := by
  unfold Pool.resize at hresize
  dsimp only at hresize
  split at hresize
  · cases hresize
    exact h
  · rename_i hopen
    split at hresize
    · split at hresize
      · cases hresize
        exact fun hflag => absurd hflag hopen
      · cases hresize
    · cases hresize
      exact fun hflag => absurd hflag hopen

theorem closed_fetchTask (h : s.Closed) : (s.fetchTask i).Closed := by
  unfold Pool.fetchTask
  split
  · split <;> exact h
  · exact h

theorem closed_removeWorker (h : s.Closed) : (s.removeWorker i).Closed := by
  unfold Pool.removeWorker
  dsimp only
  split <;> exact h

theorem closed_terminateTest (h : s.Closed) : (s.terminateTest i).Closed := by
  unfold Pool.terminateTest
  split <;> exact h

theorem closed_step {act : PoolAction τ} (h : s.Closed) (hstep : poolStep s act = some t) :
    t.Closed := by
  cases act with
  | schedule task woken =>
      simp only [poolStep, Pool.schedule] at hstep
      split at hstep <;> split at hstep <;> cases hstep <;> exact h
  | clear =>
      cases hstep
      exact h
  | resize count created => exact closed_resize h hstep
  | call i call =>
      simp only [poolStep, Pool.call] at hstep
      split at hstep <;> cases hstep
      exact h
  | caller i =>
      simp only [poolStep, Pool.callerStep] at hstep
      split at hstep <;> cases hstep
      · exact h
      · exact closed_terminateTest fun _ => rfl
      · exact closed_terminateTest h
  | worker i =>
      simp only [poolStep, Pool.workerStep] at hstep
      split at hstep <;> cases hstep
      · unfold Pool.executeTask
        split
        · exact h
        · exact closed_fetchTask h
      · have hawake : Pool.Closed { s with activeWorkerCount := s.activeWorkerCount + 1 } := h
        exact closed_fetchTask hawake
      · exact closed_removeWorker h
  | returns i | throws i =>
      simp only [poolStep, Pool.endTask] at hstep
      split at hstep <;> cases hstep
      exact h
  | died i created =>
      simp only [poolStep, Pool.workerDied] at hstep
      split at hstep
      · split at hstep
        · cases hstep
          exact closed_removeWorker h
        · exact closed_resize (closed_removeWorker h) hstep
      · cases hstep
  | wakeWorker i | wakeCaller i =>
      obtain ⟨pc, -, rfl⟩ := Option.map_eq_some_iff.mp hstep
      exact h

/-- A caller that is woken is still in its call. -/
theorem closing_wake (pc : CallerPc) : pc.wake.closing = pc.closing := by
  cases pc with
  | blocked call => cases call <;> rfl
  | _ => rfl

theorem Pool.Closing.of_wake (h : s.Closing) (hflag : t.terminateAllWorkers = s.terminateAllWorkers)
    (hcallers : t.callers = s.callers ∨ t.callers = s.callers.map CallerPc.wake) : t.Closing := by
  refine h.imp hflag.trans ?_
  rintro ⟨pc, hpc, hclosing⟩
  rcases hcallers with hcallers | hcallers <;> rw [hcallers]
  · exact ⟨pc, hpc, hclosing⟩
  · exact ⟨pc.wake, List.mem_map_of_mem hpc, (closing_wake pc).trans hclosing⟩

/-- A caller comes from one place to another. -/
theorem Pool.Closing.moveCaller {pc' : CallerPc} (h : s.Closing) (hi : s.callers[i]? = some pc)
    (hpc : pc.closing = true → pc'.closing = true) : (s.moveCaller i pc').Closing := by
  refine h.imp_right ?_
  rintro ⟨pc'', hmem, hclosing⟩
  obtain ⟨front, back, hcallers, hset⟩ := exists_split hi
  unfold Pool.moveCaller
  dsimp only
  rw [hset]
  rw [hcallers, List.mem_append, List.mem_cons] at hmem
  rcases hmem with hmem | rfl | hmem
  · exact ⟨pc'', List.mem_append_left _ hmem, hclosing⟩
  · exact ⟨pc', by simp, hpc hclosing⟩
  · exact ⟨pc'', by simp [hmem], hclosing⟩

theorem closing_fetchTask (h : s.Closing) : (s.fetchTask i).Closing := by
  unfold Pool.fetchTask
  split
  · split
    · exact h
    · exact h.of_wake rfl (Or.inr rfl)
  · exact h

/-- A `shutdown` goes on until it has told the workers. -/
theorem closing_step {act : PoolAction τ} (h : s.Closing) (hown : act.own)
    (hstep : poolStep s act = some t) : t.Closing := by
  cases act with
  | caller i =>
      simp only [poolStep, Pool.callerStep] at hstep
      split at hstep
      · rename_i call hi
        cases hstep
        refine h.moveCaller hi fun hclosing => ?_
        cases call with
        | wait k => cases hclosing
        | shutdown => split <;> rfl
      · cases hstep
        unfold Pool.terminateTest
        split <;> exact Or.inl rfl
      · rename_i hi
        cases hstep
        unfold Pool.terminateTest
        split
        · exact h.moveCaller hi (by rintro ⟨⟩)
        · have hjoined : Pool.Closing { s with terminatedWorkers := [] } := h
          exact hjoined.moveCaller hi (by rintro ⟨⟩)
      · cases hstep
  | worker i =>
      simp only [poolStep, Pool.workerStep] at hstep
      split at hstep <;> cases hstep
      · unfold Pool.executeTask
        split
        · exact h
        · exact closing_fetchTask h
      · have hawake : Pool.Closing { s with activeWorkerCount := s.activeWorkerCount + 1 } := h
        exact closing_fetchTask hawake
      · unfold Pool.removeWorker
        dsimp only
        split <;> exact h.of_wake rfl (Or.inr rfl)
  | returns i =>
      simp only [poolStep, Pool.endTask] at hstep
      split at hstep <;> cases hstep
      exact h
  | _ => cases hown

end

/-! ### The end -/

/-- Where the pool's own threads can do nothing more. -/
theorem ended_of_stuck (hinv : PoolInv t) (hcalm : Calm t) (hdropped : t.dropped = [])
    (hstuck : ∀ act : PoolAction τ, act.own → poolStep t act = none) :
    t.scheduler = [] ∧ t.running = [] ∧ ∀ pc ∈ t.callers, pc = .outside := by
  have hrunning : t.running = [] := by
    rw [Pool.running, List.filterMap_eq_nil_iff]
    intro pc hpc
    obtain ⟨i, hi⟩ := List.mem_iff_getElem?.mp hpc
    have hreturns := hstuck (.returns i) trivial
    cases pc with
    | running task =>
        rw [poolStep, Pool.endTask, hi] at hreturns
        cases hreturns
    | _ => rfl
  have hidle := not_stirring (fun i => hstuck (.worker i) trivial) hrunning hcalm.dying
  have hqueue : t.scheduler = [] := by
    by_contra hpending
    exact hidle (hinv.crew.stirring hpending (hcalm.staffed hpending).1)
  refine ⟨hqueue, hrunning, fun pc hpc => ?_⟩
  obtain ⟨i, hi⟩ := List.mem_iff_getElem?.mp hpc
  have hcaller := hstuck (.caller i) trivial
  rw [poolStep, Pool.callerStep, hi] at hcaller
  cases pc with
  | outside => rfl
  | test call | terminate | terminateTest => cases hcaller
  | blocked call =>
      obtain ⟨-, hlt | hne⟩ := (hinv.callers.blocked call hpc).resolve_left hidle
      · rw [hqueue] at hlt
        exact absurd hlt (Nat.not_lt_zero _)
      · exact absurd hdropped hne
  | terminateBlocked =>
      have hactive := hinv.callers.terminating hpc
      rw [hinv.crew.active] at hactive
      exact absurd (stirring_iff.mpr (Or.inl hactive)) hidle

/-- From a calm state, in which nobody has called `clear`, the pool comes to its end, whichever of
its threads takes the next step: they take only so many steps, and when they can take no more, every
task is over and every call has returned. If a thread was in `shutdown`, then all workers have
ended. -/
theorem pool_drains {users : Nat} {acts own : List (PoolAction τ)}
    (h : run poolStep acts (Pool.start τ users) = some s) (hclear : .clear ∉ acts) (hcalm : Calm s)
    (hown : ∀ act ∈ own, act.own) (hrun : run poolStep own s = some t) :
    own.length ≤ s.work ∧ ((∀ act : PoolAction τ, act.own → poolStep t act = none) →
      (acts.filterMap PoolAction.task).Perm t.finished ∧ (∀ pc ∈ t.callers, pc = .outside) ∧
        (s.Closing → ∀ pc ∈ t.workers, pc = .ended)) := by
  have hwhole : run poolStep (acts ++ own) (Pool.start τ users) = some t := by
    rw [run_append, h]
    exact hrun
  have hinv := poolInv_run hwhole
  refine ⟨?_, fun hstuck => ?_⟩
  · have hlower (s : Pool τ) (act : PoolAction τ) (t : Pool τ) :
        act.own → poolStep s act = some t → t.work < s.work := work_step
    have hbound := run_length_le hlower hown hrun
    omega
  have hclear' : .clear ∉ acts ++ own := by
    rw [List.mem_append]
    exact fun hmem => hmem.elim hclear fun hmem => hown _ hmem
  have hkeeps : Calm t := run_invariant_of_allSteps (fun _ _ _ => calm_step) hcalm
    (allSteps_of_forall hown) hrun
  have hdropped : t.dropped = [] := dropped_run hclear' hwhole
  obtain ⟨hqueue, hrunning, houtside⟩ := ended_of_stuck hinv hkeeps hdropped hstuck
  refine ⟨?_, houtside, fun hclosing pc hpc => ?_⟩
  · have hscheduled : t.scheduled = acts.filterMap PoolAction.task := by
      have hnothing : own.filterMap PoolAction.task = [] := by
        rw [List.filterMap_eq_nil_iff]
        intro act hact
        have := hown act hact
        cases act <;> first | rfl | cases this
      rw [scheduled_run hrun, hnothing, List.append_nil]
      exact scheduled_run h
    have haccount := hinv.tasks.account
    rw [hqueue, hrunning, hdropped, hscheduled] at haccount
    simpa only [List.append_nil] using haccount
  · have hkept : t.Closing := run_invariant_of_allSteps (fun _ _ _ => closing_step) hclosing
      (allSteps_of_forall hown) hrun
    have hflag : t.terminateAllWorkers = true := by
      refine hkept.resolve_right ?_
      rintro ⟨pc, hpc, hpc'⟩
      rw [houtside pc hpc] at hpc'
      cases hpc'
    have hclosed : t.Closed := run_invariant (fun _ _ _ => closed_step) (by rintro ⟨⟩) hwhole
    have hidle := not_stirring (fun i => hstuck (.worker i) trivial) hrunning hkeeps.dying
    cases pc with
    | ended => rfl
    | waiting =>
        -- a worker that sleeps is not one too many, but no worker is wanted
        have hneeded := hinv.crew.needed hpc
        have hpos : 0 < t.workerCount := by
          rw [hinv.crew.count]
          exact List.countP_pos_iff.mpr ⟨_, hpc, rfl⟩
        have hzero := hclosed hflag
        omega
    | notified => exact absurd ⟨_, hpc, Or.inr rfl⟩ hidle
    | fetch | running | leaving | dying => exact absurd ⟨_, hpc, Or.inl rfl⟩ hidle

theorem pool_drains_one : ∃ acts own : List (PoolAction Char), ∃ s t : Pool Char,
    run poolStep acts (Pool.start Char 1) = some s ∧ s.callers = [.test .shutdown] ∧
      run poolStep own s = some t ∧ own.length ≤ s.work ∧
      (acts.filterMap PoolAction.task).Perm t.finished ∧ ∀ pc ∈ t.workers, pc = .ended := by
  let acts : List (PoolAction Char) := [.resize 1 1, .schedule 'a' none, .call 0 .shutdown]
  let own : List (PoolAction Char) := [.caller 0, .worker 0, .returns 0, .worker 0, .caller 0,
    .caller 0, .worker 0, .worker 0]
  have hown : ∀ act ∈ own, act.own := by
    simp [own, PoolAction.own]
  cases hacts : run poolStep acts (Pool.start Char 1) with
  | none => exact absurd hacts (by decide)
  | some s =>
      have hcalm : Calm s := by
        cases hacts
        exact ⟨by decide, fun _ => by decide⟩
      have hcallers : s.callers = [.test .shutdown] := by cases hacts; rfl
      cases hrun : run poolStep own s with
      | none =>
          cases hacts
          exact absurd hrun (by decide)
      | some t =>
          have hworkers : t.workers = [.ended] := by cases hacts; cases hrun; rfl
          have houtside : t.callers = [.outside] := by cases hacts; cases hrun; rfl
          have hstuck : ∀ act : PoolAction Char, act.own → poolStep t act = none := by
            intro act hact
            cases act with
            | caller i =>
                cases i <;> simp [poolStep, Pool.callerStep, houtside]
            | worker i =>
                cases i <;> simp [poolStep, Pool.workerStep, hworkers]
            | returns i =>
                cases i <;> simp [poolStep, Pool.endTask, hworkers]
            | _ => cases hact
          obtain ⟨hbound, hend⟩ := pool_drains hacts (by simp [acts]) hcalm hown hrun
          refine ⟨acts, own, s, t, hacts, hcallers, hrun, hbound, (hend hstuck).1, ?_⟩
          exact (hend hstuck).2.2 (Or.inr ⟨.test .shutdown, by rw [hcallers]; simp, rfl⟩)

end Monitoring.Threadpool
