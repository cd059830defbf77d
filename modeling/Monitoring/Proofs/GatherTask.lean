import Monitoring.Proofs.RegistryThreads
import Monitoring.Server.GatherTask

/-!
# `Monitoring.Proofs.GatherTask`: how often a machine is gathered in a minute

A scan starts in second 0 and may go on for minutes, while the list grows. A machine has one place
in the list, so one scan starts it once. The next scan starts in a later minute: `gather_task`
sleeps until second 59 of the minute in which the last scan ended, or of a later one, and then
waits for second 0. `TaskInv` follows the clock through these statements, and `gatherTask_once` is
the result.

A step of `gather_task` is a step of the threads of `Monitoring.Proofs.RegistryThreads`
(`taskStep_server`), so what holds of these holds here.
-/

set_option autoImplicit false

namespace Monitoring.Server

open Monitoring.Lib

/-! ### The list -/

section
variable {s t : Threads}

/-- A step of the listener leaves the scan where it is, and can put one new machine on the list. -/
theorem listenerStep_list (hs : ThreadsInv s) {c : ListenChoice} (h : listenerStep c s = some t) :
    t.scanner = s.scanner ∧ (t.tables.machineList = s.tables.machineList ∨
      ∃ m ∉ s.tables.machineList, t.tables.machineList = s.tables.machineList ++ [m]) := by
  have hpushing := hs.pushing
  unfold listenerStep at h
  cases hpc : s.listener <;> rw [hpc] at h hpushing
  case idle => cases h
  case storeAddress again msg =>
    cases h
    unfold Threads.storeAddress
    split <;> exact ⟨rfl, Or.inl rfl⟩
  case push msg =>
    cases h
    unfold Tables.pushMachine
    split
    · exact ⟨rfl, Or.inl rfl⟩
    · exact ⟨rfl, Or.inr ⟨msg.mName, hpushing _ rfl, rfl⟩⟩
  case insertIp msg =>
    cases h
    unfold Threads.insertIp
    split <;> exact ⟨rfl, Or.inl rfl⟩
  case dbInsert msg =>
    cases h
    exact ⟨rfl, Or.inl (dbMachineInsert_containers c.db).1⟩
  case sendList msg =>
    obtain ⟨r, hr, rfl⟩ := Option.map_eq_some_iff.mp h
    exact ⟨rfl, Or.inl (sendList_spec hr).1⟩
  all_goals
    cases h
    exact ⟨rfl, Or.inl rfl⟩

/-- So does a step of any other thread. -/
theorem serverStep_list (hs : ThreadsInv s) {a : ServerAction} (ha : a ≠ .scan)
    (h : serverStep s a = some t) :
    t.scanner = s.scanner ∧ (t.tables.machineList = s.tables.machineList ∨
      ∃ m ∉ s.tables.machineList, t.tables.machineList = s.tables.machineList ++ [m]) := by
  cases a with
  | accept data =>
      simp only [serverStep] at h
      split at h
      · cases h
        exact ⟨rfl, Or.inl rfl⟩
      · cases h
  | listen c => exact listenerStep_list hs h
  | scan => exact absurd rfl ha
  | begin m =>
      simp only [serverStep] at h
      split at h
      · obtain ⟨hlist, -, -, -, hscan, -⟩ := beginGather_names h
        exact ⟨hscan, Or.inl hlist⟩
      · cases h
  | finish m outcome fuel =>
      simp only [serverStep] at h
      split at h
      · obtain ⟨u, hu, rfl⟩ := Option.map_eq_some_iff.mp h
        exact ⟨rfl, Or.inl (finishGather_names hu).1⟩
      · cases h

/-- The scan does not change the list. -/
theorem scannerStep_list (s : Threads) :
    (scannerStep s).tables.machineList = s.tables.machineList := by
  unfold scannerStep
  split
  · rfl
  · split <;> rfl
  · rfl

/-- A look at a place ends the scan, or finds a machine there. -/
theorem scannerStep_look {i : Nat} (h : s.scanner = .look i) :
    (scannerStep s).scanner = .idle ∨ ∃ m, s.tables.machineList[i]? = some m ∧
      ((scannerStep s).scanner = .launch i m ∨ (scannerStep s).scanner = .look (i + 1)) := by
  unfold scannerStep
  rw [h]
  dsimp only
  cases hm : s.tables.machineList[i]? with
  | none => exact Or.inl rfl
  | some m =>
      refine Or.inr ⟨m, rfl, ?_⟩
      dsimp only
      split_ifs
      · exact Or.inl rfl
      · exact Or.inr rfl

end

/-! ### The invariant -/

/-- Second 59 of every minute in which a machine was started is over, or has come, at time `c`. -/
def GatherTask.RestedAt (p : GatherTask) (c : Int) : Prop := ∀ e ∈ p.started, 60 * e.2 + 59 ≤ c

/-- Every machine was started in the minute of `c`, or in one before. -/
def GatherTask.StartedBy (p : GatherTask) (c : Int) : Prop := ∀ e ∈ p.started, e.2 ≤ c / 60

/-- The scan has the places below `i` behind it. It began in minute `k`, or later, and every machine
that was started since then has one of these places. -/
structure GatherTask.ScannedTo (p : GatherTask) (i : Nat) : Prop where
  place : i ≤ p.threads.tables.machineList.length
  since : ∃ k, k ≤ p.clock / 60 ∧
    ∀ e ∈ p.started, e.2 < k ∨ e.1 ∈ p.threads.tables.machineList.take i

/-- What holds at each statement. -/
def GatherTask.AtPc (p : GatherTask) : Prop :=
  match p.pc with
  | .testSize | .napping _ | .time | .waiting _ => p.RestedAt p.clock
  | .convert now => p.RestedAt now ∧ now ≤ p.clock
  | .testSecond => p.RestedAt p.tmClock ∧ p.tmClock ≤ p.clock
  | .scan =>
      match p.threads.scanner with
      | .idle => False
      | .look i => p.ScannedTo i
      | .launch i m => p.threads.tables.machineList[i]? = some m ∧ p.ScannedTo i
  | .timeAfter => True
  | .convertAfter now => p.StartedBy now ∧ now ≤ p.clock
  | .sleep => p.StartedBy p.tmClock ∧ p.tmClock ≤ p.clock
  | .sleeping wake => p.RestedAt wake

/-- No machine was started twice in a minute, and what makes this last. -/
structure TaskInv (p : GatherTask) : Prop where
  threads : ThreadsInv p.threads
  list : p.threads.tables.machineList.Nodup
  idle : p.pc ≠ .scan → p.threads.scanner = .idle
  once : p.started.Nodup
  past : p.StartedBy p.clock
  slept : ∀ seconds ∈ p.slept, 0 ≤ seconds
  atPc : p.AtPc

/-- What the time and the other threads can change. -/
structure Elsewhere (p q : GatherTask) : Prop where
  pc : q.pc = p.pc
  clock : p.clock ≤ q.clock
  tmClock : q.tmClock = p.tmClock ∨ q.tmClock = q.clock
  started : q.started = p.started
  slept : q.slept = p.slept
  scanner : q.threads.scanner = p.threads.scanner
  list : p.threads.tables.machineList <+: q.threads.tables.machineList

section
variable {p q : GatherTask}

theorem GatherTask.RestedAt.mono {c d : Int} (h : p.RestedAt c) (hle : c ≤ d) : p.RestedAt d :=
  fun e he => (h e he).trans hle

theorem GatherTask.StartedBy.mono {c d : Int} (h : p.StartedBy c) (hle : c ≤ d) :
    p.StartedBy d := fun e he => (h e he).trans (Int.ediv_le_ediv (by decide) hle)

/-- A machine that is rested was started in a minute before, if the second is 0. -/
theorem GatherTask.RestedAt.lt {c : Int} (h : p.RestedAt c) (hc : ¬ 0 < tmSec c) :
    ∀ e ∈ p.started, e.2 < c / 60 := by
  intro e he
  have hrested := h e he
  unfold tmSec at hc
  omega

/-- The sleep leads to second 59. -/
theorem GatherTask.StartedBy.rested {c d : Int} (h : p.StartedBy c) (hle : c ≤ d) :
    p.RestedAt (d + (59 - tmSec c)) := by
  intro e he
  have hstarted := h e he
  unfold tmSec
  omega

/-! ### Steps elsewhere -/

theorem GatherTask.ScannedTo.elsewhere {i : Nat} (h : p.ScannedTo i) (ho : Elsewhere p q) :
    q.ScannedTo i := by
  obtain ⟨more, hmore⟩ := ho.list
  obtain ⟨k, hk, hsince⟩ := h.since
  refine ⟨h.place.trans ho.list.length_le,
    k, hk.trans (Int.ediv_le_ediv (by decide) ho.clock), fun e he => ?_⟩
  rw [← hmore, List.take_append_of_le_length h.place]
  exact hsince e (ho.started ▸ he)

/-- The object of `localtime` gets no earlier time, and none ahead of the clock. -/
theorem Elsewhere.tmClock_le (ho : Elsewhere p q) (h : p.tmClock ≤ p.clock) :
    p.tmClock ≤ q.tmClock ∧ q.tmClock ≤ q.clock := by
  rcases ho.tmClock with htm | htm
  · exact ⟨htm.ge, htm.le.trans (h.trans ho.clock)⟩
  · exact ⟨(h.trans ho.clock).trans htm.ge, htm.le⟩

theorem GatherTask.AtPc.elsewhere (h : p.AtPc) (ho : Elsewhere p q) : q.AtPc := by
  have hrested : ∀ c, p.RestedAt c → q.RestedAt c := fun c hc e he => hc e (ho.started ▸ he)
  have hstarted : ∀ c, p.StartedBy c → q.StartedBy c := fun c hc e he => hc e (ho.started ▸ he)
  unfold GatherTask.AtPc at h ⊢
  rw [ho.pc]
  cases hpc : p.pc with
  | testSize | napping _ | time | waiting _ =>
      rw [hpc] at h
      exact (hrested _ h).mono ho.clock
  | convert now =>
      rw [hpc] at h
      exact ⟨hrested _ h.1, h.2.trans ho.clock⟩
  | testSecond =>
      rw [hpc] at h
      obtain ⟨hlater, hclock⟩ := ho.tmClock_le h.2
      exact ⟨(hrested _ h.1).mono hlater, hclock⟩
  | scan =>
      rw [hpc] at h
      dsimp only at h ⊢
      rw [ho.scanner]
      cases hscan : p.threads.scanner with
      | idle =>
          rw [hscan] at h
          exact h
      | look i =>
          rw [hscan] at h
          exact h.elsewhere ho
      | launch i m =>
          rw [hscan] at h
          obtain ⟨hlt, -⟩ := List.getElem?_eq_some_iff.mp h.1
          obtain ⟨more, hmore⟩ := ho.list
          refine ⟨?_, h.2.elsewhere ho⟩
          rw [← hmore, List.getElem?_append_left hlt]
          exact h.1
  | timeAfter => trivial
  | convertAfter now =>
      rw [hpc] at h
      exact ⟨hstarted _ h.1, h.2.trans ho.clock⟩
  | sleep =>
      rw [hpc] at h
      obtain ⟨hlater, hclock⟩ := ho.tmClock_le h.2
      exact ⟨(hstarted _ h.1).mono hlater, hclock⟩
  | sleeping wake =>
      rw [hpc] at h
      exact hrested _ h

/-- A step of the time, or of another thread. -/
theorem TaskInv.elsewhere (hp : TaskInv p) (ho : Elsewhere p q) (hthreads : ThreadsInv q.threads)
    (hlist : q.threads.tables.machineList.Nodup) : TaskInv q where
  threads := hthreads
  list := hlist
  idle := by rw [ho.pc, ho.scanner]; exact hp.idle
  once := ho.started ▸ hp.once
  past := fun e he => hp.past.mono ho.clock e (ho.started ▸ he)
  slept := ho.slept ▸ hp.slept
  atPc := hp.atPc.elsewhere ho

/-! ### The statements of `gather_task` -/

/-- A statement outside of the scan, that starts nothing. -/
theorem TaskInv.moves (hp : TaskInv p) (hthreads : q.threads = p.threads)
    (hidle : p.pc ≠ .scan) (hclock : q.clock = p.clock) (hstarted : q.started = p.started)
    (hslept : ∀ seconds ∈ q.slept, 0 ≤ seconds) (hpc : q.AtPc) : TaskInv q where
  threads := hthreads ▸ hp.threads
  list := hthreads ▸ hp.list
  idle := by rw [hthreads]; exact fun _ => hp.idle hidle
  once := hstarted ▸ hp.once
  past := by
    rw [hclock]
    exact fun e he => hp.past e (hstarted ▸ he)
  slept := hslept
  atPc := hpc

/-- The scan begins in a minute in which nothing was started. -/
theorem TaskInv.begins (hp : TaskInv p) (hpc : p.pc = .testSecond) (hsec : ¬ 0 < tmSec p.tmClock) :
    TaskInv { p with threads := { p.threads with scanner := .look 0 }, pc := .scan } where
  threads := hp.threads.others rfl rfl rfl rfl (by rintro m ⟨⟩)
  list := hp.list
  idle := fun h => absurd rfl h
  once := hp.once
  past := hp.past
  slept := hp.slept
  atPc := by
    have hat := hp.atPc
    unfold GatherTask.AtPc at hat
    rw [hpc] at hat
    exact ⟨Nat.zero_le _, p.tmClock / 60, Int.ediv_le_ediv (by decide) hat.2,
      fun e he => Or.inl (hat.1.lt hsec e he)⟩

/-- One place more is behind the scan. -/
theorem GatherTask.ScannedTo.next {i : Nat} {m : Bytes} (h : p.ScannedTo i)
    (hm : p.threads.tables.machineList[i]? = some m)
    (hlist : q.threads.tables.machineList = p.threads.tables.machineList)
    (hclock : q.clock = p.clock)
    (hstarted : ∀ e ∈ q.started, e ∈ p.started ∨ e.1 = m) : q.ScannedTo (i + 1) := by
  obtain ⟨hlt, hget⟩ := List.getElem?_eq_some_iff.mp hm
  obtain ⟨k, hk, hsince⟩ := h.since
  refine ⟨by rw [hlist]; exact hlt, k, by rw [hclock]; exact hk, fun e he => ?_⟩
  rw [hlist, List.take_succ_eq_append_getElem hlt, List.mem_append, List.mem_singleton]
  rcases hstarted e he with he | heq
  · exact (hsince e he).imp id Or.inl
  · exact Or.inr (Or.inr (heq.trans hget.symm))

/-- The machine at place `i` has not been started since the scan began. -/
theorem GatherTask.ScannedTo.fresh {i : Nat} {m : Bytes} (h : p.ScannedTo i)
    (hnodup : p.threads.tables.machineList.Nodup)
    (hm : p.threads.tables.machineList[i]? = some m) : (m, p.clock / 60) ∉ p.started := by
  intro he
  obtain ⟨hlt, hget⟩ := List.getElem?_eq_some_iff.mp hm
  obtain ⟨k, hk, hsince⟩ := h.since
  rcases hsince _ he with hbefore | hplace
  · exact absurd hk (Int.not_le.mpr hbefore)
  · obtain ⟨j, hj, heq⟩ := List.mem_take_iff_getElem.mp hplace
    have hij : j = i := (hnodup.getElem_inj_iff).mp (heq.trans hget.symm)
    omega

/-- What holds behind a step of the scan, by the place that it comes to. -/
theorem atPc_scanStep
    (hlook : ∀ i, (scannerStep p.threads).scanner = .look i → p.scanStep.ScannedTo i)
    (hlaunch : ∀ i m, (scannerStep p.threads).scanner = .launch i m →
      p.threads.tables.machineList[i]? = some m ∧ p.scanStep.ScannedTo i) : p.scanStep.AtPc := by
  have hpc : p.scanStep.pc
      = if (scannerStep p.threads).scanner = .idle then .timeAfter else .scan := rfl
  have hthreads : p.scanStep.threads = scannerStep p.threads := rfl
  unfold GatherTask.AtPc
  rw [hpc, hthreads, scannerStep_list]
  cases hscan : (scannerStep p.threads).scanner with
  | idle => trivial
  | look i => exact hlook i hscan
  | launch i m => exact hlaunch i m hscan

/-- A step of the scan. -/
theorem TaskInv.scanStep (hp : TaskInv p) (hpc : p.pc = .scan) : TaskInv p.scanStep := by
  have hlist : p.scanStep.threads.tables.machineList = p.threads.tables.machineList :=
    scannerStep_list p.threads
  have hidle : p.scanStep.pc ≠ .scan → p.scanStep.threads.scanner = .idle := by
    intro h
    by_contra hne
    exact h (if_neg hne)
  have hinv (honce : p.scanStep.started.Nodup) (hpast : p.scanStep.StartedBy p.clock)
      (hat : p.scanStep.AtPc) : TaskInv p.scanStep :=
    ⟨threadsInv_scanner hp.threads, hlist ▸ hp.list, hidle, honce, hpast, hp.slept, hat⟩
  have hat := hp.atPc
  unfold GatherTask.AtPc at hat
  rw [hpc] at hat
  dsimp only at hat
  cases hscan : p.threads.scanner with
  | idle =>
      rw [hscan] at hat
      exact hat.elim
  | look i =>
      rw [hscan] at hat
      have hstarted : p.scanStep.started = p.started := by
        unfold GatherTask.scanStep
        rw [hscan]
      have hmem : ∀ e ∈ p.scanStep.started, e ∈ p.started := fun e he => hstarted ▸ he
      have hsame : ∀ m, p.threads.tables.machineList[i]? = some m →
          p.scanStep.ScannedTo i ∧ p.scanStep.ScannedTo (i + 1) := by
        intro m hm
        obtain ⟨k, hk, hsince⟩ := hat.since
        exact ⟨⟨hlist ▸ hat.place, k, hk, fun e he => hlist ▸ hsince e (hmem e he)⟩,
          hat.next hm hlist rfl fun e he => Or.inl (hmem e he)⟩
      refine hinv (hstarted ▸ hp.once) (fun e he => hp.past e (hmem e he)) ?_
      rcases scannerStep_look hscan with hnext | ⟨m, hm, hnext | hnext⟩
      · exact atPc_scanStep (by simp [hnext]) (by simp [hnext])
      · refine atPc_scanStep (by simp [hnext]) fun j n hj => ?_
        obtain ⟨rfl, rfl⟩ := ScanPc.launch.inj (hnext.symm.trans hj)
        exact ⟨hm, (hsame _ hm).1⟩
      · refine atPc_scanStep (fun j hj => ?_) (by simp [hnext])
        obtain rfl := ScanPc.look.inj (hnext.symm.trans hj)
        exact (hsame m hm).2
  | launch i m =>
      rw [hscan] at hat
      obtain ⟨hm, hat⟩ := hat
      have hstarted : p.scanStep.started = p.started ++ [(m, p.clock / 60)] := by
        unfold GatherTask.scanStep
        rw [hscan]
      have hmem : ∀ e ∈ p.scanStep.started, e ∈ p.started ∨ e = (m, p.clock / 60) := by
        intro e he
        rw [hstarted] at he
        exact (List.mem_append.mp he).imp id List.mem_singleton.mp
      have hnext : (scannerStep p.threads).scanner = .look (i + 1) := by
        unfold scannerStep
        rw [hscan]
      refine hinv ?_ ?_ (atPc_scanStep (fun j hj => ?_) (by simp [hnext]))
      · rw [hstarted, ← List.concat_eq_append]
        exact List.Nodup.concat (hat.fresh hp.list hm) hp.once
      · intro e he
        rcases hmem e he with he | rfl
        · exact hp.past e he
        · exact le_rfl
      · obtain rfl := ScanPc.look.inj (hnext.symm.trans hj)
        exact hat.next hm hlist rfl fun e he => (hmem e he).imp id fun heq => by rw [heq]

/-- One statement of `gather_task`. -/
theorem TaskInv.gather (hp : TaskInv p) (h : gatherTaskStep p = some q) : TaskInv q := by
  have hat := hp.atPc
  unfold GatherTask.AtPc at hat
  unfold gatherTaskStep at h
  cases hpc : p.pc <;> rw [hpc] at h hat <;> dsimp only at h hat
  case testSize =>
    by_cases hempty : p.threads.tables.machineList = []
    · rw [if_pos hempty] at h
      cases h
      exact hp.moves rfl (by simp [hpc]) rfl rfl hp.slept hat
    · rw [if_neg hempty] at h
      cases h
      exact hp.moves rfl (by simp [hpc]) rfl rfl hp.slept hat
  case napping wake | waiting wake =>
    split at h
    · cases h
      exact hp.moves rfl (by simp [hpc]) rfl rfl hp.slept hat
    · cases h
  case time =>
    cases h
    exact hp.moves rfl (by simp [hpc]) rfl rfl hp.slept ⟨hat, le_rfl⟩
  case convert now =>
    cases h
    exact hp.moves rfl (by simp [hpc]) rfl rfl hp.slept hat
  case testSecond =>
    split at h
    · cases h
      exact hp.moves rfl (by simp [hpc]) rfl rfl hp.slept (hat.1.mono hat.2)
    · next hsec =>
      cases h
      exact hp.begins hpc hsec
  case scan =>
    cases h
    exact hp.scanStep hpc
  case timeAfter =>
    cases h
    exact hp.moves rfl (by simp [hpc]) rfl rfl hp.slept ⟨hp.past, le_rfl⟩
  case convertAfter now =>
    cases h
    exact hp.moves rfl (by simp [hpc]) rfl rfl hp.slept hat
  case sleep =>
    cases h
    refine hp.moves rfl (by simp [hpc]) rfl rfl ?_ (hat.1.rested hat.2)
    intro seconds hseconds
    rcases List.mem_append.mp hseconds with hseconds | hseconds
    · exact hp.slept seconds hseconds
    · rw [List.mem_singleton.mp hseconds]
      unfold tmSec
      omega
  case sleeping wake =>
    split at h
    · next hwake =>
      cases h
      exact hp.moves rfl (by simp [hpc]) rfl rfl hp.slept (hat.mono hwake)
    · cases h

/-- One event. -/
theorem TaskInv.step (hp : TaskInv p) {e : TaskEvent} (h : taskStep p e = some q) : TaskInv q := by
  cases e with
  | elapse seconds =>
      cases h
      exact hp.elsewhere ⟨rfl, Int.le_add_of_nonneg_right (Int.natCast_nonneg seconds), Or.inl rfl,
        rfl, rfl, rfl, List.prefix_rfl⟩ hp.threads hp.list
  | localtime =>
      cases h
      exact hp.elsewhere ⟨rfl, le_rfl, Or.inr rfl, rfl, rfl, rfl, List.prefix_rfl⟩ hp.threads
        hp.list
  | gather => exact hp.gather h
  | server a =>
      have ha : a ≠ .scan := by
        rintro rfl
        cases h
      have hserver : (serverStep p.threads a).map (fun t => { p with threads := t }) = some q := by
        cases a with
        | scan => exact absurd rfl ha
        | _ => exact h
      obtain ⟨t, ht, rfl⟩ := Option.map_eq_some_iff.mp hserver
      obtain ⟨hscanner, hlist⟩ := serverStep_list hp.threads ha ht
      have hthreads := threadsInv_step hp.threads ht
      rcases hlist with hlist | ⟨m, hm, hlist⟩
      · exact hp.elsewhere ⟨rfl, le_rfl, Or.inl rfl, rfl, rfl, hscanner, hlist ▸ List.prefix_rfl⟩
          hthreads (hlist ▸ hp.list)
      · refine hp.elsewhere ⟨rfl, le_rfl, Or.inl rfl, rfl, rfl, hscanner,
          hlist ▸ List.prefix_append _ _⟩ hthreads ?_
        show t.tables.machineList.Nodup
        rw [hlist, ← List.concat_eq_append]
        exact List.Nodup.concat hm hp.list

end

theorem taskInv_start (windowsList linuxList : Table Int Bytes) (clock tmClock : Int) :
    TaskInv (GatherTask.start windowsList linuxList clock tmClock) where
  threads := threadsInv_start windowsList linuxList
  list := List.nodup_nil
  idle := fun _ => rfl
  once := List.nodup_nil
  past := fun _ h => absurd h List.not_mem_nil
  slept := fun _ h => absurd h List.not_mem_nil
  atPc := fun _ h => absurd h List.not_mem_nil

/-! ### Whole runs -/

/-- Every event is a step of the threads, or leaves them alone. -/
theorem taskStep_server {p q : GatherTask} (hp : TaskInv p) {e : TaskEvent}
    (h : taskStep p e = some q) :
    q.threads = p.threads ∨ ∃ a, serverStep p.threads a = some q.threads := by
  cases e with
  | elapse seconds | localtime =>
      cases h
      exact Or.inl rfl
  | server a =>
      cases a with
      | scan => cases h
      | _ =>
          obtain ⟨t, ht, rfl⟩ := Option.map_eq_some_iff.mp h
          exact Or.inr ⟨_, ht⟩
  | gather =>
      change gatherTaskStep p = some q at h
      unfold gatherTaskStep at h
      cases hpc : p.pc <;> rw [hpc] at h <;> dsimp only at h
      case scan =>
        cases h
        exact Or.inr ⟨.scan, rfl⟩
      case testSecond =>
        split at h
        · cases h
          exact Or.inl rfl
        · cases h
          -- the first step of the scan
          refine Or.inr ⟨.scan, ?_⟩
          have hidle := hp.idle (by simp [hpc])
          show some (scannerStep p.threads) = _
          unfold scannerStep
          rw [hidle]
      case napping wake | waiting wake | sleeping wake =>
        split at h
        · cases h
          exact Or.inl rfl
        · cases h
      all_goals
        cases h
        exact Or.inl rfl

/-- For every run of the threads and of the clock: no machine is started twice in a minute, and no
argument of the `sleep` behind a scan is negative. -/
theorem gatherTask_once (windowsList linuxList : Table Int Bytes) (clock tmClock : Int)
    {events : List TaskEvent} {p : GatherTask}
    (hrun : run taskStep events (GatherTask.start windowsList linuxList clock tmClock) = some p) :
    p.started.Nodup ∧ ∀ seconds ∈ p.slept, 0 ≤ seconds := by
  have hp : TaskInv p :=
    run_invariant (fun _ _ _ hs h => hs.step h)
      (taskInv_start windowsList linuxList clock tmClock) hrun
  exact ⟨hp.once, hp.slept⟩

/-- A machine `pc` calls home, and is gathered in minute 1. -/
def oneScan : List TaskEvent :=
  .server (.accept [ch '1', ch '2', ch 'p', ch 'c']) :: List.replicate 4 (.server plainListen)
    ++ List.replicate 10 .gather

theorem gatherTask_once_oneScan :
    ∃ p, run taskStep oneScan (GatherTask.start ∅ ∅ 60 0) = some p ∧
      p.started = [([ch 'p', ch 'c'], 1)] ∧ p.slept = [59] ∧
      p.started.Nodup ∧ ∀ seconds ∈ p.slept, 0 ≤ seconds := by
  have hghosts : (run taskStep oneScan (GatherTask.start ∅ ∅ 60 0)).map
      (fun p => (p.started, p.slept)) = some ([([ch 'p', ch 'c'], 1)], [59]) := by
    decide +kernel
  obtain ⟨p, hrun, hp⟩ := Option.map_eq_some_iff.mp hghosts
  obtain ⟨hstarted, hslept⟩ := Prod.mk.inj hp
  exact ⟨p, hrun, hstarted, hslept, gatherTask_once ∅ ∅ 60 0 hrun⟩

end Monitoring.Server
