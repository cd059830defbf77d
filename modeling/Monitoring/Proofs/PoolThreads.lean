import Monitoring.Lib.Places
import Monitoring.Threadpool.Core

/-!
# `Monitoring.Proofs.PoolThreads`: no thread of the pool sleeps for ever

Two invariants, for every interleaving of the threads that use the pool, its workers, and waits that
end by themselves. `CrewInv` says what the counters count, that every task that is pending while a
worker sleeps has a worker of its own that was woken, and that no worker sleeps that should go.
`CallerInv` is about the threads in `wait` and `shutdown`: as long as one sleeps there, some worker
is awake.
-/

set_option autoImplicit false

namespace Monitoring.Threadpool

open Monitoring.Lib

variable {τ : Type}

/-! ### The places of the workers -/

namespace WorkerPc

/-- The worker is counted in `m_worker_count`. -/
def live : WorkerPc τ → Bool
  | .ended => false
  | _ => true

/-- The worker is counted in `m_active_worker_count`. -/
def active : WorkerPc τ → Bool
  | .fetch | .running _ | .leaving | .dying => true
  | .waiting | .notified | .ended => false

/-- The worker sleeps. -/
def isWaiting : WorkerPc τ → Bool
  | .waiting => true
  | _ => false

/-- The worker was woken, and does not have the mutex yet. -/
def isNotified : WorkerPc τ → Bool
  | .notified => true
  | _ => false

/-- The task that the worker executes. -/
def task : WorkerPc τ → Option τ
  | .running task => some task
  | _ => none

end WorkerPc

/-- The tasks that are being executed. -/
def Pool.running (s : Pool τ) : List τ := s.workers.filterMap WorkerPc.task

/-- A worker is awake: it is active, or was woken. -/
def Pool.Stirring (s : Pool τ) : Prop := ∃ pc ∈ s.workers, pc.active = true ∨ pc.isNotified = true

section
variable {workers : List (WorkerPc τ)}

/-- A live worker is active, was woken, or sleeps. -/
theorem countP_live (workers : List (WorkerPc τ)) :
    workers.countP WorkerPc.live = workers.countP WorkerPc.active
      + workers.countP WorkerPc.isNotified + workers.countP WorkerPc.isWaiting := by
  induction workers with
  | nil => rfl
  | cons pc workers ih =>
      simp only [List.countP_cons, ih]
      cases pc <;>
        simp [WorkerPc.live, WorkerPc.active, WorkerPc.isNotified, WorkerPc.isWaiting] <;> omega

theorem countP_isWaiting_pos : 0 < workers.countP WorkerPc.isWaiting ↔ .waiting ∈ workers := by
  rw [List.countP_pos_iff]
  constructor
  · rintro ⟨pc, hpc, hwaiting⟩
    cases pc <;> first | exact hpc | cases hwaiting
  · exact fun h => ⟨_, h, rfl⟩

theorem stirring_iff {s : Pool τ} : s.Stirring ↔
    0 < s.workers.countP WorkerPc.active ∨ 0 < s.workers.countP WorkerPc.isNotified := by
  rw [List.countP_pos_iff, List.countP_pos_iff]
  constructor
  · rintro ⟨pc, hpc, h | h⟩
    · exact Or.inl ⟨pc, hpc, h⟩
    · exact Or.inr ⟨pc, hpc, h⟩
  · rintro (⟨pc, hpc, h⟩ | ⟨pc, hpc, h⟩)
    · exact ⟨pc, hpc, Or.inl h⟩
    · exact ⟨pc, hpc, Or.inr h⟩

/-- Nobody sleeps behind a `notify_all`. -/
theorem waiting_not_mem_wake : WorkerPc.waiting ∉ workers.map WorkerPc.wake := by
  rw [List.mem_map]
  rintro ⟨pc, -, h⟩
  cases pc <;> cases h

/-- A `notify_all` leaves counts of other kinds as they are. -/
theorem countP_wake {p : WorkerPc τ → Bool} (hp : ∀ pc : WorkerPc τ, p pc.wake = p pc) :
    (workers.map WorkerPc.wake).countP p = workers.countP p := by
  rw [List.countP_map]
  exact congrArg (fun f => List.countP f workers) (funext hp)

@[simp] theorem live_wake (pc : WorkerPc τ) : pc.wake.live = pc.live := by cases pc <;> rfl

@[simp] theorem active_wake (pc : WorkerPc τ) : pc.wake.active = pc.active := by cases pc <;> rfl

@[simp] theorem task_wake (pc : WorkerPc τ) : pc.wake.task = pc.task := by cases pc <;> rfl

end

/-! ### The workers -/

/-- What the counters count; that a pending task has a worker that was woken for it, as long as one
sleeps; and that no worker sleeps that should go. -/
structure CrewInv (s : Pool τ) : Prop where
  count : s.workerCount = s.workers.countP WorkerPc.live
  active : s.activeWorkerCount = s.workers.countP WorkerPc.active
  promised : .waiting ∈ s.workers → s.scheduler.length ≤ s.workers.countP WorkerPc.isNotified
  needed : .waiting ∈ s.workers → s.workerCount ≤ s.targetWorkerCount

section
variable {s t : Pool τ} {i : Nat} {a b : WorkerPc τ}

/-- A worker comes from one place to another. -/
theorem CrewInv.move (h : CrewInv s) (hi : s.workers[i]? = some a)
    (hworkers : t.workers = s.workers.set i b)
    (hcount : t.workerCount + a.live.toNat = s.workerCount + b.live.toNat)
    (hactive : t.activeWorkerCount + a.active.toNat = s.activeWorkerCount + b.active.toNat)
    (htarget : t.targetWorkerCount = s.targetWorkerCount) (hle : t.workerCount ≤ s.workerCount)
    (hsleep : b = .waiting → t.scheduler = [] ∧ t.workerCount ≤ t.targetWorkerCount)
    (hqueue : t.scheduler = [] ∨ t.scheduler.length + a.isNotified.toNat
      ≤ s.scheduler.length + b.isNotified.toNat) : CrewInv t := by
  have hset (p : WorkerPc τ → Bool) :
      t.workers.countP p + (p a).toNat = s.workers.countP p + (p b).toNat := by
    rw [hworkers]
    exact countP_set_add p hi b
  have hmem : .waiting ∈ t.workers → b = .waiting ∨ .waiting ∈ s.workers := by
    intro hw
    rw [hworkers] at hw
    exact (List.mem_or_eq_of_mem_set hw).symm.imp Eq.symm id
  refine ⟨?_, ?_, fun hw => ?_, fun hw => ?_⟩
  · have hlive := hset WorkerPc.live
    have hs := h.count
    omega
  · have hact := hset WorkerPc.active
    have hs := h.active
    omega
  · rcases hqueue with hnil | hqueue
    · rw [hnil]
      exact Nat.zero_le _
    · rcases hmem hw with hb | hw
      · rw [(hsleep hb).1]
        exact Nat.zero_le _
      · have hnot := hset WorkerPc.isNotified
        have hs := h.promised hw
        omega
  · rcases hmem hw with hb | hw
    · exact (hsleep hb).2
    · exact htarget ▸ Nat.le_trans hle (h.needed hw)

/-- Where a task is pending, a worker is awake, if there is any. -/
theorem CrewInv.stirring (h : CrewInv s) (hpending : s.scheduler ≠ []) (hlive : 0 < s.workerCount) :
    s.Stirring := by
  rw [stirring_iff]
  by_contra hidle
  have hparts := countP_live s.workers
  have hcount := h.count
  have hwaiting : .waiting ∈ s.workers := countP_isWaiting_pos.mp (by omega)
  have hpromised := h.promised hwaiting
  have hlength := List.length_pos_iff.mpr hpending
  omega

theorem CrewInv.notifyWorkers (h : CrewInv s) (hworkers : t.workers = s.workers.map WorkerPc.wake)
    (hcount : t.workerCount = s.workerCount) (hactive : t.activeWorkerCount = s.activeWorkerCount) :
    CrewInv t where
  count := by rw [hcount, hworkers, countP_wake live_wake, h.count]
  active := by rw [hactive, hworkers, countP_wake active_wake, h.active]
  promised hw := absurd (hworkers ▸ hw) waiting_not_mem_wake
  needed hw := absurd (hworkers ▸ hw) waiting_not_mem_wake

/-- Steps that leave the workers where they are. -/
theorem CrewInv.congr (h : CrewInv s) (hworkers : t.workers = s.workers)
    (hcount : t.workerCount = s.workerCount) (hactive : t.activeWorkerCount = s.activeWorkerCount)
    (htarget : t.targetWorkerCount = s.targetWorkerCount)
    (hqueue : .waiting ∈ s.workers → t.scheduler.length ≤ s.scheduler.length) : CrewInv t where
  count := by rw [hcount, hworkers, h.count]
  active := by rw [hactive, hworkers, h.active]
  promised hw := by
    rw [hworkers] at hw ⊢
    exact Nat.le_trans (hqueue hw) (h.promised hw)
  needed hw := by
    rw [hcount, htarget]
    exact h.needed (hworkers ▸ hw)

/-- A worker in the loop of `execute_task`, where one that was woken counts itself as active. -/
theorem crewInv_fetchTask (h : CrewInv s) (hi : s.workers[i]? = some a)
    (ha : a = .fetch ∨ a = .notified) :
    CrewInv (({ s with
      activeWorkerCount := s.activeWorkerCount + a.isNotified.toNat } : Pool τ).fetchTask i) := by
  unfold Pool.fetchTask
  dsimp only
  cases hqueue : s.scheduler with
  | nil =>
      dsimp only
      by_cases hsurplus : s.targetWorkerCount < s.workerCount
      · rw [if_pos hsurplus]
        refine h.move hi rfl ?_ ?_ rfl (Nat.le_refl _) (by rintro ⟨⟩) (Or.inl rfl) <;>
          rcases ha with rfl | rfl <;> rfl
      · rw [if_neg hsurplus]
        refine h.move hi rfl ?_ ?_ rfl (Nat.le_refl _)
          (fun _ => ⟨rfl, Nat.le_of_not_lt hsurplus⟩) (Or.inl rfl)
        · rcases ha with rfl | rfl <;> rfl
        · have hpos : 0 < s.activeWorkerCount + a.isNotified.toNat := by
            rcases ha with rfl | rfl
            · rw [h.active]
              exact Nat.add_pos_left
                (List.countP_pos_iff.mpr ⟨_, List.mem_of_getElem? hi, rfl⟩) _
            · exact Nat.succ_pos _
          change s.activeWorkerCount + a.isNotified.toNat - 1 + a.active.toNat
            = s.activeWorkerCount + 0
          rcases ha with rfl | rfl <;> simp only [WorkerPc.isNotified, WorkerPc.active,
            Bool.toNat_true, Bool.toNat_false] at hpos ⊢ <;> omega
  | cons task tasks =>
      refine h.move hi rfl ?_ ?_ rfl (Nat.le_refl _) (by rintro ⟨⟩) (Or.inr ?_)
      · rcases ha with rfl | rfl <;> rfl
      · rcases ha with rfl | rfl <;> rfl
      · change tasks.length + a.isNotified.toNat ≤ s.scheduler.length + 0
        rw [hqueue, List.length_cons]
        have := a.isNotified.toNat_le
        omega

theorem crewInv_executeTask (h : CrewInv s) (hi : s.workers[i]? = some .fetch) :
    CrewInv (s.executeTask i) := by
  unfold Pool.executeTask
  by_cases hsurplus : s.targetWorkerCount < s.workerCount
  · rw [if_pos hsurplus]
    exact h.move hi rfl rfl rfl rfl (Nat.le_refl _) (by rintro ⟨⟩) (Or.inr (Nat.le_refl _))
  · rw [if_neg hsurplus]
    exact crewInv_fetchTask h hi (Or.inl rfl)

theorem crewInv_removeWorker (h : CrewInv s) (hi : s.workers[i]? = some a)
    (ha : a = .leaving ∨ a = .dying) : CrewInv (s.removeWorker i) := by
  have hmem := List.mem_of_getElem? hi
  have hlive : 0 < s.workerCount := by
    rw [h.count]
    exact List.countP_pos_iff.mpr ⟨a, hmem, by rcases ha with rfl | rfl <;> rfl⟩
  have hactive : 0 < s.activeWorkerCount := by
    rw [h.active]
    exact List.countP_pos_iff.mpr ⟨a, hmem, by rcases ha with rfl | rfl <;> rfl⟩
  have hcount : s.workerCount - 1 + a.live.toNat = s.workerCount + 0 := by
    rcases ha with rfl | rfl <;> exact Nat.sub_add_cancel hlive
  have hcount' : s.activeWorkerCount - 1 + a.active.toNat = s.activeWorkerCount + 0 := by
    rcases ha with rfl | rfl <;> exact Nat.sub_add_cancel hactive
  have hqueue : s.scheduler.length + a.isNotified.toNat ≤ s.scheduler.length + 0 := by
    rcases ha with rfl | rfl <;> exact Nat.le_refl _
  unfold Pool.removeWorker
  dsimp only
  split
  all_goals
    exact h.move hi rfl hcount hcount' rfl (Nat.sub_le _ _) (by rintro ⟨⟩) (Or.inr hqueue)

theorem crewInv_resize {count created : Nat} (h : CrewInv s)
    (hresize : s.resize count created = some t) : CrewInv t := by
  unfold Pool.resize at hresize
  split at hresize
  · cases hresize
    exact h
  · dsimp only at hresize
    split at hresize
    · rename_i hle
      split at hresize
      · cases hresize
        have hfresh (p : WorkerPc τ → Bool) :
            (s.workers ++ List.replicate created WorkerPc.fetch).countP p
              = s.workers.countP p + if p WorkerPc.fetch then created else 0 := by
          rw [List.countP_append, List.countP_replicate]
        refine ⟨?_, ?_, fun hw => ?_, fun hw => ?_⟩
        · exact (congrArg (· + created) h.count).trans (hfresh _).symm
        · exact (congrArg (· + created) h.active).trans (hfresh _).symm
        · have hw' : .waiting ∈ s.workers := by
            simpa [Pool.grow] using hw
          exact Nat.le_trans (h.promised hw') (Nat.le_of_eq (hfresh WorkerPc.isNotified).symm)
        · change s.workerCount + created ≤ count
          omega
      · cases hresize
    · cases hresize
      exact h.notifyWorkers rfl rfl rfl

theorem crewInv_schedule {task : τ} {woken : Option Nat} (h : CrewInv s)
    (hschedule : s.schedule task woken = some t) : CrewInv t := by
  unfold Pool.schedule at hschedule
  dsimp only at hschedule
  cases woken with
  | none =>
      dsimp only at hschedule
      split at hschedule
      · cases hschedule
      · rename_i hnone
        cases hschedule
        refine h.congr rfl rfl rfl rfl fun hw => absurd ?_ hnone
        exact List.any_eq_true.mpr ⟨_, hw, rfl⟩
  | some i =>
      dsimp only at hschedule
      split at hschedule
      · rename_i hwoken
        cases hschedule
        have hi : s.workers[i]? = some .waiting := by
          cases hw : s.workers[i]? with
          | none => rw [hw] at hwoken; cases hwoken
          | some pc =>
              rw [hw] at hwoken
              cases pc <;> first | rfl | cases hwoken
        refine h.move hi rfl rfl rfl rfl (Nat.le_refl _) (by rintro ⟨⟩) (Or.inr ?_)
        exact Nat.le_of_eq (List.length_append ..)
      · cases hschedule

theorem crewInv_moveCaller (h : CrewInv s) (i : Nat) (pc : CallerPc) :
    CrewInv (s.moveCaller i pc) := h.congr rfl rfl rfl rfl fun _ => Nat.le_refl _

theorem crewInv_terminateTest (h : CrewInv s) (i : Nat) : CrewInv (s.terminateTest i) := by
  unfold Pool.terminateTest
  split <;> exact h.congr rfl rfl rfl rfl fun _ => Nat.le_refl _

theorem crewInv_endTask {pc : WorkerPc τ} (h : CrewInv s) (hpc : pc = .fetch ∨ pc = .dying)
    (hend : s.endTask i pc = some t) : CrewInv t := by
  unfold Pool.endTask at hend
  split at hend
  · rename_i task hi
    cases hend
    rcases hpc with rfl | rfl <;>
      exact h.move hi rfl rfl rfl rfl (Nat.le_refl _) (by rintro ⟨⟩) (Or.inr (Nat.le_refl _))
  · cases hend

/-- Every step keeps the invariant of the workers. -/
theorem crewInv_step {act : PoolAction τ} (h : CrewInv s) (hstep : poolStep s act = some t) :
    CrewInv t := by
  cases act with
  | schedule task woken => exact crewInv_schedule h hstep
  | clear =>
      cases hstep
      exact h.congr rfl rfl rfl rfl fun _ => Nat.zero_le _
  | resize count created => exact crewInv_resize h hstep
  | call i call =>
      simp only [poolStep, Pool.call] at hstep
      split at hstep
      · cases hstep
        exact crewInv_moveCaller h _ _
      · cases hstep
  | caller i =>
      simp only [poolStep, Pool.callerStep] at hstep
      split at hstep
      · cases hstep
        exact crewInv_moveCaller h _ _
      · cases hstep
        have hwoken : CrewInv s.requestTerminate := h.notifyWorkers rfl rfl rfl
        exact crewInv_terminateTest hwoken i
      · cases hstep
        exact crewInv_terminateTest h i
      · cases hstep
  | worker i =>
      simp only [poolStep, Pool.workerStep] at hstep
      split at hstep
      · rename_i hi
        cases hstep
        exact crewInv_executeTask h hi
      · rename_i hi
        cases hstep
        exact crewInv_fetchTask h hi (Or.inr rfl)
      · rename_i hi
        cases hstep
        exact crewInv_removeWorker h hi (Or.inl rfl)
      · cases hstep
  | returns i => exact crewInv_endTask h (Or.inl rfl) hstep
  | throws i => exact crewInv_endTask h (Or.inr rfl) hstep
  | died i created =>
      simp only [poolStep, Pool.workerDied] at hstep
      split at hstep
      · rename_i hi
        have hremoved := crewInv_removeWorker h hi (Or.inr rfl)
        split at hstep
        · cases hstep
          exact hremoved
        · exact crewInv_resize hremoved hstep
      · cases hstep
  | wakeWorker i =>
      obtain ⟨pc, hi, rfl⟩ := Option.map_eq_some_iff.mp hstep
      refine h.move hi rfl (by rw [live_wake]; rfl) (by rw [active_wake]; rfl) rfl
        (Nat.le_refl _) ?_ (Or.inr ?_)
      · intro hpc
        cases pc <;> cases hpc
      · cases pc <;> simp [Pool.move, WorkerPc.wake, WorkerPc.isNotified]
  | wakeCaller i =>
      obtain ⟨pc, -, rfl⟩ := Option.map_eq_some_iff.mp hstep
      exact crewInv_moveCaller h _ _

theorem crewInv_start (users : Nat) : CrewInv (Pool.start τ users) where
  count := rfl
  active := rfl
  promised := by rintro ⟨⟩
  needed := by rintro ⟨⟩

end

/-! ### The callers -/

/-- A caller sleeps in `wait` only while a worker is awake, or there is none; and in
`terminate_all_workers` only while a worker is active. -/
structure CallerInv (s : Pool τ) : Prop where
  blocked : ∀ call, .blocked call ∈ s.callers → s.Stirring ∨
    (s.workerCount = 0 ∧ (call.threshold < s.scheduler.length ∨ s.dropped ≠ []))
  terminating : .terminateBlocked ∈ s.callers → 0 < s.activeWorkerCount

section
variable {s t : Pool τ} {i : Nat} {a b : WorkerPc τ}

theorem CrewInv.active_pos (h : CrewInv s) (hi : s.workers[i]? = some a) (ha : a.active = true) :
    0 < s.activeWorkerCount := by
  rw [h.active]
  exact List.countP_pos_iff.mpr ⟨a, List.mem_of_getElem? hi, ha⟩

/-- A worker that is at a place behind a step of it. -/
theorem getElem?_move (hi : s.workers[i]? = some a) (b : WorkerPc τ) :
    (s.move i b).workers[i]? = some b :=
  List.getElem?_set_self (List.getElem?_eq_some_iff.mp hi).1

/-- Behind a `notify_all`, nobody is blocked. -/
theorem CallerInv.woken (hcallers : t.callers = s.callers.map CallerPc.wake) : CallerInv t where
  blocked call hmem := by
    rw [hcallers] at hmem
    obtain ⟨pc, -, hpc⟩ := List.mem_map.mp hmem
    cases pc <;> cases hpc
  terminating hmem := by
    rw [hcallers] at hmem
    obtain ⟨pc, -, hpc⟩ := List.mem_map.mp hmem
    cases pc <;> cases hpc

/-- A step behind which a worker is active. -/
theorem CallerInv.of_active (ht : CrewInv t) (hi : t.workers[i]? = some b)
    (hb : b.active = true) : CallerInv t where
  blocked _ _ := Or.inl ⟨b, List.mem_of_getElem? hi, Or.inl hb⟩
  terminating _ := ht.active_pos hi hb

/-- A step that leaves the callers where they are, and does not put a worker to sleep. -/
theorem CallerInv.keeps (h : CallerInv s) (hcallers : t.callers = s.callers)
    (hstirring : s.Stirring → t.Stirring) (hactive : s.activeWorkerCount ≤ t.activeWorkerCount)
    (hnone : ∀ k, s.workerCount = 0 → k < s.scheduler.length ∨ s.dropped ≠ [] →
      t.Stirring ∨ (t.workerCount = 0 ∧ (k < t.scheduler.length ∨ t.dropped ≠ []))) :
    CallerInv t where
  blocked call hmem :=
    (h.blocked call (hcallers ▸ hmem)).elim (fun hs => Or.inl (hstirring hs))
      fun hs => hnone call.threshold hs.1 hs.2
  terminating hmem := Nat.lt_of_lt_of_le (h.terminating (hcallers ▸ hmem)) hactive

/-- A step of a caller to a place where it does not sleep. -/
theorem CallerInv.moveCaller {pc : CallerPc} (h : CallerInv s) (i : Nat)
    (hblocked : ∀ call, pc ≠ .blocked call) (hterminating : pc ≠ .terminateBlocked) :
    CallerInv (s.moveCaller i pc) where
  blocked call hmem :=
    (List.mem_or_eq_of_mem_set hmem).elim (h.blocked call)
      fun heq => absurd heq.symm (hblocked call)
  terminating hmem :=
    (List.mem_or_eq_of_mem_set hmem).elim h.terminating fun heq => absurd heq.symm hterminating

/-- A worker that is woken is awake, and the others stay so. -/
theorem stirring_move (h : s.Stirring) (hi : s.workers[i]? = some a) (b : WorkerPc τ)
    (hb : a.active = true ∨ a.isNotified = true → b.active = true ∨ b.isNotified = true) :
    (s.move i b).Stirring := by
  obtain ⟨front, back, hworkers, hset⟩ := exists_split hi
  obtain ⟨pc, hpc, hawake⟩ := h
  unfold Pool.Stirring Pool.move
  dsimp only
  rw [hset]
  rw [hworkers, List.mem_append, List.mem_cons] at hpc
  rcases hpc with hpc | rfl | hpc
  · exact ⟨pc, List.mem_append_left _ hpc, hawake⟩
  · exact ⟨b, by simp, hb hawake⟩
  · exact ⟨pc, by simp [hpc], hawake⟩

theorem stirring_notifyWorkers (h : s.Stirring)
    (hworkers : t.workers = s.workers.map WorkerPc.wake) : t.Stirring := by
  obtain ⟨pc, hpc, hawake⟩ := h
  refine ⟨pc.wake, hworkers ▸ List.mem_map_of_mem hpc,
    hawake.imp (by rw [active_wake]; exact id) ?_⟩
  intro hnotified
  cases pc <;> first | rfl | cases hnotified

/-- The loop of `execute_task` wakes the callers, or leaves the worker active. -/
theorem callerInv_fetchTask (ht : CrewInv (s.fetchTask i)) (hi : s.workers[i]? = some a) :
    CallerInv (s.fetchTask i) := by
  unfold Pool.fetchTask at ht ⊢
  split
  · rename_i hqueue
    rw [hqueue] at ht
    dsimp only at ht ⊢
    split
    · rename_i hsurplus
      rw [if_pos hsurplus] at ht
      exact CallerInv.of_active ht (getElem?_move hi _) rfl
    · exact CallerInv.woken rfl
  · rename_i task tasks hqueue
    rw [hqueue] at ht
    exact CallerInv.of_active ht (getElem?_move hi _) rfl

theorem callerInv_removeWorker (s : Pool τ) (i : Nat) : CallerInv (s.removeWorker i) := by
  unfold Pool.removeWorker
  dsimp only
  split <;> exact CallerInv.woken rfl

theorem callerInv_resize {count created : Nat} (h : CallerInv s)
    (hresize : s.resize count created = some t) : CallerInv t := by
  unfold Pool.resize at hresize
  split at hresize
  · cases hresize
    exact h
  · dsimp only at hresize
    split at hresize
    · split at hresize
      · cases hresize
        refine h.keeps rfl ?_ (Nat.le_add_right _ _) fun k hnone hpending => ?_
        · rintro ⟨pc, hpc, hawake⟩
          exact ⟨pc, List.mem_append_left _ hpc, hawake⟩
        · cases created with
          | zero => exact Or.inr ⟨hnone, hpending⟩
          | succ n =>
              refine Or.inl ⟨.fetch, List.mem_append_right _ ?_, Or.inl rfl⟩
              exact List.mem_replicate.mpr ⟨Nat.succ_ne_zero n, rfl⟩
      · cases hresize
    · cases hresize
      exact h.keeps rfl (fun hs => stirring_notifyWorkers hs rfl) (Nat.le_refl _)
        fun k hnone hpending => Or.inr ⟨hnone, hpending⟩

theorem callerInv_schedule {task : τ} {woken : Option Nat} (h : CallerInv s)
    (hschedule : s.schedule task woken = some t) : CallerInv t := by
  have hlonger (k : Nat) (hk : k < s.scheduler.length ∨ s.dropped ≠ []) :
      k < (s.scheduler ++ [task]).length ∨ s.dropped ≠ [] := by
    rw [List.length_append]
    exact hk.imp_left fun hlt => Nat.lt_add_right _ hlt
  unfold Pool.schedule at hschedule
  dsimp only at hschedule
  split at hschedule
  · split at hschedule
    · cases hschedule
    · cases hschedule
      exact h.keeps rfl id (Nat.le_refl _) fun k hnone hk => Or.inr ⟨hnone, hlonger k hk⟩
  · rename_i j
    split at hschedule
    · rename_i hwoken
      cases hschedule
      cases hj : s.workers[j]? with
      | none => rw [hj] at hwoken; cases hwoken
      | some pc =>
          refine h.keeps rfl ?_ (Nat.le_refl _) fun k hnone hk => Or.inr ⟨hnone, hlonger k hk⟩
          exact fun hs => stirring_move hs hj .notified fun _ => Or.inr rfl
    · cases hschedule

/-- The two tests of `wait` are one. -/
theorem busy_iff {k : Nat} :
    s.busy k = true ↔ k < s.activeWorkerCount + s.scheduler.length := by
  unfold Pool.busy
  split
  · rename_i hzero
    rw [hzero, Nat.add_pos_iff_pos_or_pos]
    simp [Nat.pos_iff_ne_zero]
  · exact decide_eq_true_iff

/-- A caller that goes to sleep has seen a task or an active worker. -/
theorem callerInv_test {call : WaitCall} (hs : CrewInv s) (h : CallerInv s)
    (hbusy : s.busy call.threshold = true) (i : Nat) :
    CallerInv (s.moveCaller i (.blocked call)) where
  blocked c hmem := by
    rcases List.mem_or_eq_of_mem_set hmem with hold | heq
    · exact h.blocked c hold
    · obtain rfl := CallerPc.blocked.inj heq
      have hlt := busy_iff.mp hbusy
      by_cases hactive : 0 < s.activeWorkerCount
      · left
        rw [hs.active] at hactive
        exact stirring_iff.mpr (Or.inl hactive)
      · have hpending : c.threshold < s.scheduler.length := by omega
        by_cases hlive : 0 < s.workerCount
        · exact Or.inl (hs.stirring (List.ne_nil_of_length_pos (by omega)) hlive)
        · exact Or.inr ⟨Nat.eq_zero_of_not_pos hlive, Or.inl hpending⟩
  terminating hmem := by
    rcases List.mem_or_eq_of_mem_set hmem with hold | heq
    · exact h.terminating hold
    · cases heq

theorem callerInv_terminateTest (h : CallerInv s) (i : Nat) : CallerInv (s.terminateTest i) := by
  unfold Pool.terminateTest
  split
  · rename_i hactive
    refine ⟨fun call hmem => ?_, fun _ => hactive⟩
    rcases List.mem_or_eq_of_mem_set hmem with hold | heq
    · exact h.blocked call hold
    · cases heq
  · have hjoined : CallerInv ({ s with terminatedWorkers := [] } : Pool τ) :=
      ⟨h.blocked, h.terminating⟩
    exact hjoined.moveCaller i (by rintro _ ⟨⟩) (by rintro ⟨⟩)

/-- Every step keeps the invariant of the callers. -/
theorem callerInv_step {act : PoolAction τ} (hs : CrewInv s) (h : CallerInv s)
    (hstep : poolStep s act = some t) : CallerInv t := by
  have ht := crewInv_step hs hstep
  cases act with
  | schedule task woken => exact callerInv_schedule h hstep
  | clear =>
      cases hstep
      refine h.keeps rfl id (Nat.le_refl _) fun k hnone hpending => Or.inr ⟨hnone, Or.inr ?_⟩
      intro hnil
      obtain ⟨hdropped, hqueue⟩ := List.append_eq_nil_iff.mp hnil
      rcases hpending with hlt | hne
      · rw [hqueue] at hlt
        exact absurd hlt (Nat.not_lt_zero k)
      · exact hne hdropped
  | resize count created => exact callerInv_resize h hstep
  | call i call =>
      simp only [poolStep, Pool.call] at hstep
      split at hstep
      · cases hstep
        exact h.moveCaller i (by rintro _ ⟨⟩) (by rintro ⟨⟩)
      · cases hstep
  | caller i =>
      simp only [poolStep, Pool.callerStep] at hstep
      split at hstep
      · rename_i call hi
        cases hstep
        split
        · rename_i hbusy
          exact callerInv_test hs h hbusy i
        · split <;> exact h.moveCaller i (by rintro _ ⟨⟩) (by rintro ⟨⟩)
      · cases hstep
        have hwoken : CallerInv s.requestTerminate :=
          h.keeps rfl (fun hs => stirring_notifyWorkers hs rfl) (Nat.le_refl _)
            fun k hnone hpending => Or.inr ⟨hnone, hpending⟩
        exact callerInv_terminateTest hwoken i
      · cases hstep
        exact callerInv_terminateTest h i
      · cases hstep
  | worker i =>
      simp only [poolStep, Pool.workerStep] at hstep
      split at hstep
      · rename_i hi
        cases hstep
        unfold Pool.executeTask at ht ⊢
        split
        · rename_i hsurplus
          rw [if_pos hsurplus] at ht
          exact CallerInv.of_active ht (getElem?_move hi _) rfl
        · rename_i hsurplus
          rw [if_neg hsurplus] at ht
          exact callerInv_fetchTask ht hi
      · rename_i hi
        cases hstep
        exact callerInv_fetchTask ht hi
      · cases hstep
        exact callerInv_removeWorker s i
      · cases hstep
  | returns i | throws i =>
      simp only [poolStep, Pool.endTask] at hstep
      split at hstep
      · rename_i task hi
        cases hstep
        exact CallerInv.of_active ht (getElem?_move hi _) rfl
      · cases hstep
  | died i created =>
      simp only [poolStep, Pool.workerDied] at hstep
      split at hstep
      · split at hstep
        · cases hstep
          exact callerInv_removeWorker s i
        · exact callerInv_resize (callerInv_removeWorker s i) hstep
      · cases hstep
  | wakeWorker i =>
      obtain ⟨pc, hi, rfl⟩ := Option.map_eq_some_iff.mp hstep
      refine h.keeps rfl (fun hs => stirring_move hs hi _ ?_) (Nat.le_refl _)
        fun k hnone hpending => Or.inr ⟨hnone, hpending⟩
      cases pc <;> first | exact id | exact fun _ => Or.inr rfl
  | wakeCaller i =>
      obtain ⟨pc, -, rfl⟩ := Option.map_eq_some_iff.mp hstep
      exact h.moveCaller i (by cases pc <;> rintro _ ⟨⟩) (by cases pc <;> rintro ⟨⟩)

theorem callerInv_start (users : Nat) : CallerInv (Pool.start τ users) where
  blocked _ hmem := by
    cases (List.mem_replicate.mp hmem).2
  terminating hmem := by
    cases (List.mem_replicate.mp hmem).2

end

end Monitoring.Threadpool
