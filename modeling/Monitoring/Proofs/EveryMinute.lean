import Monitoring.Proofs.GatherTask

/-!
# `Monitoring.Proofs.EveryMinute`: no listed machine is left out

A scan reads the size of MACHINE_LIST again at every place, and the list grows at its end only. So a
machine that is listed when a scan begins stays ahead of it (`Threads.Ahead`) until its place
comes, and is started there unless it is blacklisted. `scan_complete` is this for one scan, with
whatever the other threads and the clock do.

How often there is a scan depends on the clock: `gather_task` looks for second 0 once a second, and
misses it when a `sleep` returns late, or when a scan does not end in its minute. `OnTime` excludes
this. Then no minute is left out (`gathered_every_minute`): `ServedSince` follows a machine from
minute to minute. It would miss second 0, or see it twice, if another thread filled the object of
`localtime` with an earlier second; `Monitoring.Server.GatherTask` has no such step.
-/

set_option autoImplicit false

namespace Monitoring.Server

open Monitoring.Lib

/-! ### The rest of a scan -/

/-- The scan has not come to the machine. -/
def Threads.Ahead (s : Threads) (m : Bytes) : Prop :=
  match s.scanner with
  | .idle => False
  | .look i | .launch i _ => m ∈ s.tables.machineList.drop i

section
variable {s t : Threads} {p q : GatherTask} {m : Bytes}

/-- The list grows at its end. -/
theorem Threads.Ahead.mono (h : s.Ahead m) (hscanner : t.scanner = s.scanner)
    (hlist : s.tables.machineList <+: t.tables.machineList) : t.Ahead m := by
  obtain ⟨more, hmore⟩ := hlist
  have hdrop : ∀ i, m ∈ s.tables.machineList.drop i → m ∈ t.tables.machineList.drop i := by
    intro i hi
    rw [← hmore, List.drop_append]
    exact List.mem_append_left _ hi
  unfold Threads.Ahead at h ⊢
  rw [hscanner]
  split at h
  · exact h.elim
  · exact hdrop _ h
  · exact hdrop _ h

/-- From a place on there are the machine at this place, and those behind it. -/
theorem mem_drop_succ {list : List Bytes} {i : Nat} {n : Bytes} (hn : list[i]? = some n)
    (hm : m ∈ list.drop i) : m = n ∨ m ∈ list.drop (i + 1) := by
  obtain ⟨hlt, rfl⟩ := List.getElem?_eq_some_iff.mp hn
  rw [List.drop_eq_getElem_cons hlt] at hm
  exact List.mem_cons.mp hm

/-- A look at a place passes no machine that is not blacklisted. -/
theorem Threads.Ahead.look {i : Nat} (h : s.Ahead m) (hscan : s.scanner = .look i) (hname : m ≠ [])
    (hasked : s.tables.blacklist.read m 0 = 0) : (scannerStep s).Ahead m := by
  simp only [Threads.Ahead, hscan] at h
  simp only [scannerStep, hscan]
  cases hn : s.tables.machineList[i]? with
  | none =>
      -- nothing is behind the end
      rw [List.drop_eq_nil_of_le (List.getElem?_eq_none_iff.mp hn)] at h
      exact absurd h List.not_mem_nil
  | some n =>
      dsimp only
      unfold Threads.Ahead
      rw [Table.read_touch_self]
      split_ifs with hlaunch
      · exact h
      · refine (mem_drop_succ hn h).resolve_left ?_
        rintro rfl
        exact hlaunch ⟨hasked, hname⟩

/-- Behind a launch, the machine has been started or is at a later place. -/
theorem Threads.Ahead.launch {i : Nat} {n : Bytes} (h : s.Ahead m) (hscan : s.scanner = .launch i n)
    (hn : s.tables.machineList[i]? = some n) : m = n ∨ (scannerStep s).Ahead m := by
  simp only [Threads.Ahead, hscan] at h
  simp only [Threads.Ahead, scannerStep, hscan]
  exact mem_drop_succ hn h

theorem mem_started_scanStep {e : Bytes × Int} (he : e ∈ p.started) : e ∈ p.scanStep.started := by
  unfold GatherTask.scanStep
  dsimp only
  split
  · exact List.mem_append_left _ he
  · exact he

/-- What has been started stays in `started`. -/
theorem mem_started_gatherTaskStep (h : gatherTaskStep p = some q) {e : Bytes × Int}
    (he : e ∈ p.started) : e ∈ q.started := by
  unfold gatherTaskStep at h
  cases hpc : p.pc <;> rw [hpc] at h <;> dsimp only at h
  case scan =>
    cases h
    exact mem_started_scanStep he
  case napping wake | waiting wake | sleeping wake =>
    split at h <;> cases h
    exact he
  case testSecond =>
    split at h <;> cases h <;> exact he
  all_goals
    cases h
    exact he

/-- A step of the scan leaves a machine ahead or starts it, if it is not blacklisted. -/
theorem scanStep_ahead (hp : TaskInv p) (hpc : p.pc = .scan) (h : p.threads.Ahead m)
    (hasked : p.threads.tables.blacklist.read m 0 = 0) :
    (p.scanStep.pc = .scan ∧ p.scanStep.threads.Ahead m) ∨
      (m, p.clock / 60) ∈ p.scanStep.started := by
  have hthreads : p.scanStep.threads = scannerStep p.threads := rfl
  have hstays (hahead : (scannerStep p.threads).Ahead m) :
      p.scanStep.pc = .scan ∧ p.scanStep.threads.Ahead m := by
    refine ⟨if_neg fun hidle => ?_, hahead⟩
    simp only [Threads.Ahead, hidle] at hahead
  cases hscan : p.threads.scanner with
  | idle =>
      simp only [Threads.Ahead, hscan] at h
  | look i =>
      have hname : m ≠ [] := by
        rintro rfl
        simp only [Threads.Ahead, hscan] at h
        exact hp.threads.named (List.mem_of_mem_drop h)
      exact Or.inl (hstays (h.look hscan hname hasked))
  | launch i n =>
      have hat := hp.atPc
      simp only [GatherTask.AtPc, hpc, hscan] at hat
      rcases h.launch hscan hat.1 with rfl | hbehind
      · right
        simp only [GatherTask.scanStep, hscan]
        exact List.mem_append_right _ (List.mem_singleton_self _)
      · exact Or.inl (hstays hbehind)

/-! ### Steps of `gather_task`, and steps elsewhere -/

/-- An event is a statement of `gather_task` or a step elsewhere. Only `elapse` moves the clock. -/
theorem taskStep_cases (hp : TaskInv p) {e : TaskEvent} (h : taskStep p e = some q) :
    (e = .gather ∧ gatherTaskStep p = some q) ∨
      Elsewhere p q ∧ ((∃ seconds : Nat, e = .elapse seconds ∧ q.clock = p.clock + seconds) ∨
        q.clock = p.clock) := by
  cases e with
  | elapse seconds =>
      cases h
      exact Or.inr ⟨⟨rfl, Int.le_add_of_nonneg_right (Int.natCast_nonneg seconds), Or.inl rfl, rfl,
        rfl, rfl, List.prefix_rfl⟩, Or.inl ⟨seconds, rfl, rfl⟩⟩
  | localtime =>
      cases h
      exact Or.inr ⟨⟨rfl, le_rfl, Or.inr rfl, rfl, rfl, rfl, List.prefix_rfl⟩, Or.inr rfl⟩
  | gather => exact Or.inl ⟨rfl, h⟩
  | server a =>
      have ha : a ≠ .scan := by
        rintro rfl
        cases h
      have hserver : (serverStep p.threads a).map (fun t => { p with threads := t }) = some q := by
        cases a with
        | scan => exact absurd rfl ha
        | _ => exact h
      obtain ⟨t, ht, rfl⟩ := Option.map_eq_some_iff.mp hserver
      obtain ⟨hscanner, hlist⟩ := serverStep_list hp.threads ha ht
      have hprefix : p.threads.tables.machineList <+: t.tables.machineList := by
        rcases hlist with hlist | ⟨n, -, hlist⟩
        · exact hlist ▸ List.prefix_rfl
        · exact hlist ▸ List.prefix_append _ _
      exact Or.inr ⟨⟨rfl, le_rfl, Or.inl rfl, rfl, rfl, hscanner, hprefix⟩, Or.inr rfl⟩

/-- No statement of `gather_task` moves the clock. -/
theorem gatherTaskStep_clock (h : gatherTaskStep p = some q) : q.clock = p.clock := by
  unfold gatherTaskStep at h
  cases hpc : p.pc <;> rw [hpc] at h <;> dsimp only at h
  case napping wake | waiting wake | sleeping wake =>
    split at h <;> cases h
    rfl
  case testSecond =>
    split at h <;> cases h <;> rfl
  all_goals
    cases h
    rfl

end

/-! ### One scan -/

/-- Since time `c₀` the machine was started, or the scan comes to it. -/
structure Covered (m : Bytes) (c₀ : Int) (p : GatherTask) : Prop where
  since : c₀ ≤ p.clock
  covered : (∃ k, c₀ / 60 ≤ k ∧ (m, k) ∈ p.started) ∨ p.pc = .scan ∧ p.threads.Ahead m

theorem Covered.step {m : Bytes} {c₀ : Int} {p q : GatherTask} (h : Covered m c₀ p) (hp : TaskInv p)
    (hasked : p.threads.tables.blacklist.read m 0 = 0) {e : TaskEvent}
    (hstep : taskStep p e = some q) : Covered m c₀ q := by
  obtain ⟨hsince, hcovered⟩ := h
  rcases taskStep_cases hp hstep with ⟨-, hgather⟩ | ⟨ho, -⟩
  · refine ⟨(gatherTaskStep_clock hgather).symm ▸ hsince, ?_⟩
    rcases hcovered with ⟨k, hk, hmem⟩ | ⟨hpc, hahead⟩
    · exact Or.inl ⟨k, hk, mem_started_gatherTaskStep hgather hmem⟩
    · have hq : some p.scanStep = some q := by
        simpa only [gatherTaskStep, hpc] using hgather
      obtain rfl := Option.some.inj hq
      rcases scanStep_ahead hp hpc hahead hasked with hscan | hmem
      · exact Or.inr hscan
      · exact Or.inl ⟨p.clock / 60, Int.ediv_le_ediv (by decide) hsince, hmem⟩
  · refine ⟨hsince.trans ho.clock, ?_⟩
    rw [ho.pc, ho.started]
    exact hcovered.imp_right (And.imp_right fun hahead => hahead.mono ho.scanner ho.list)

/-- For every run of the threads and of the clock, and every scan in it: a machine that is on the
list when the scan begins has been started when it is over, in a minute of the scan, unless it was
blacklisted in between. -/
theorem scan_complete (windowsList linuxList : Table Int Bytes) (clock tmClock : Int)
    {before events : List TaskEvent} {p q : GatherTask} {m : Bytes}
    (hbefore : run taskStep before (GatherTask.start windowsList linuxList clock tmClock) = some p)
    (hpc : p.pc = .scan) (hbegin : p.threads.scanner = .look 0)
    (hm : m ∈ p.threads.tables.machineList) (hrun : run taskStep events p = some q)
    (hasked : AllSteps taskStep (fun s _ => s.threads.tables.blacklist.read m 0 = 0) events p)
    (hover : q.pc ≠ .scan) :
    ∃ k, p.clock / 60 ≤ k ∧ k ≤ q.clock / 60 ∧ (m, k) ∈ q.started := by
  have hp : TaskInv p :=
    run_invariant (fun _ _ _ hs h => hs.step h)
      (taskInv_start windowsList linuxList clock tmClock) hbefore
  have hahead : p.threads.Ahead m := by
    simp only [Threads.Ahead, hbegin]
    exact hm
  have hkept : ∀ s e t, TaskInv s ∧ Covered m p.clock s →
      s.threads.tables.blacklist.read m 0 = 0 → taskStep s e = some t →
      TaskInv t ∧ Covered m p.clock t :=
    fun s e t hs hread h => ⟨hs.1.step h, hs.2.step hs.1 hread h⟩
  obtain ⟨hq, hcovered⟩ :=
    run_invariant_of_allSteps hkept ⟨hp, le_rfl, Or.inr ⟨hpc, hahead⟩⟩ hasked hrun
  rcases hcovered.covered with ⟨k, hk, hmem⟩ | ⟨hscan, -⟩
  · exact ⟨k, hk, hq.past _ hmem, hmem⟩
  · exact absurd hscan hover

/-- A machine `pc` calls home. -/
def pcListed : List TaskEvent :=
  .server (.accept [ch '1', ch '2', ch 'p', ch 'c']) :: List.replicate 4 (.server plainListen)

/-- Then a scan begins, if it is second 0. -/
def scanBegins : List TaskEvent := pcListed ++ List.replicate 4 .gather

/-- The scan takes more than a minute. -/
def slowScan : List TaskEvent := [.gather, .elapse 61, .localtime, .gather, .gather]

theorem scan_complete_slow :
    ∃ p q, run taskStep scanBegins (GatherTask.start ∅ ∅ 60 0) = some p ∧
      run taskStep slowScan p = some q ∧
      ∃ k, p.clock / 60 ≤ k ∧ k ≤ q.clock / 60 ∧ ([ch 'p', ch 'c'], k) ∈ q.started := by
  have hbegins : (run taskStep scanBegins (GatherTask.start ∅ ∅ 60 0)).map
      (fun p => decide (p.pc = .scan ∧ p.threads.scanner = .look 0 ∧
        [ch 'p', ch 'c'] ∈ p.threads.tables.machineList ∧
        AllSteps taskStep (fun s _ => s.threads.tables.blacklist.read [ch 'p', ch 'c'] 0 = 0)
          slowScan p)) = some true := by
    decide +kernel
  have hends : ((run taskStep scanBegins (GatherTask.start ∅ ∅ 60 0)).bind
      (run taskStep slowScan)).map (fun q => decide (q.pc ≠ .scan)) = some true := by
    decide +kernel
  obtain ⟨p, hbefore, hp⟩ := Option.map_eq_some_iff.mp hbegins
  obtain ⟨hpc, hbegin, hm, hasked⟩ := of_decide_eq_true hp
  rw [hbefore, Option.bind_some] at hends
  obtain ⟨q, hrun, hq⟩ := Option.map_eq_some_iff.mp hends
  exact ⟨p, q, hbefore, hrun,
    scan_complete ∅ ∅ 60 0 hbefore hpc hbegin hm hrun hasked (of_decide_eq_true hq)⟩

/-! ### On time -/

/-- The time can go on from `clock` to `c`: a `sleep` returns on time, a scan ends in its minute,
and nothing else takes a second. -/
def TaskPc.MayElapse (clock c : Int) : TaskPc → Prop
  | .napping wake | .waiting wake | .sleeping wake => c ≤ wake
  | .scan => c / 60 = clock / 60
  | .testSize | .time | .convert _ | .testSecond => c = clock
  | .timeAfter | .convertAfter _ | .sleep => c = clock

/-- A condition on the machine that the server runs on. -/
def OnTime (p : GatherTask) : TaskEvent → Prop
  | .elapse seconds => p.pc.MayElapse p.clock (p.clock + seconds)
  | .localtime | .server _ | .gather => True

instance decidableMayElapse (clock c : Int) : (pc : TaskPc) → Decidable (pc.MayElapse clock c)
  | .napping wake | .waiting wake | .sleeping wake => inferInstanceAs (Decidable (c ≤ wake))
  | .scan => inferInstanceAs (Decidable (c / 60 = clock / 60))
  | .testSize | .time | .convert _ | .testSecond => inferInstanceAs (Decidable (c = clock))
  | .timeAfter | .convertAfter _ | .sleep => inferInstanceAs (Decidable (c = clock))

instance decidableOnTime (p : GatherTask) : (e : TaskEvent) → Decidable (OnTime p e)
  | .elapse seconds => decidableMayElapse p.clock (p.clock + seconds) p.pc
  | .localtime | .server _ | .gather => isTrue trivial

/-- What `OnTime` makes of the clock. -/
def GatherTask.Timing (p : GatherTask) : Prop :=
  match p.pc with
  | .napping wake => p.clock ≤ wake ∧ wake ≤ p.clock + 1
  -- the second in which the wait began is not 0
  | .waiting wake =>
      p.clock ≤ wake ∧ wake ≤ p.clock + 1 ∧ (p.clock < wake → 0 < tmSec p.clock)
  | .convert now | .convertAfter now => now = p.clock
  | .testSecond | .sleep => p.tmClock = p.clock
  | .sleeping wake => wake = 60 * (p.clock / 60) + 59
  | .testSize | .time | .scan | .timeAfter => True

section
variable {p q : GatherTask} {m : Bytes} {c₀ : Int}

theorem GatherTask.Timing.mayElapse (h : p.Timing) : p.pc.MayElapse p.clock p.clock := by
  unfold GatherTask.Timing at h
  cases hpc : p.pc <;> rw [hpc] at h <;> dsimp only [TaskPc.MayElapse] at h ⊢ <;> omega

theorem OnTime.mayElapse (h : p.Timing) {e : TaskEvent} (hontime : OnTime p e)
    (hclock : (∃ seconds : Nat, e = .elapse seconds ∧ q.clock = p.clock + seconds) ∨
      q.clock = p.clock) : p.pc.MayElapse p.clock q.clock := by
  rcases hclock with ⟨seconds, rfl, hclock⟩ | hclock
  · exact hclock ▸ hontime
  · exact hclock ▸ h.mayElapse

theorem GatherTask.Timing.elsewhere (h : p.Timing) (ho : Elsewhere p q)
    (hmay : p.pc.MayElapse p.clock q.clock) : q.Timing := by
  have hclock := ho.clock
  have htm := ho.tmClock
  unfold GatherTask.Timing at h ⊢
  unfold tmSec at h ⊢
  rw [ho.pc]
  cases hpc : p.pc <;> rw [hpc] at h hmay <;> dsimp only [TaskPc.MayElapse] at h hmay ⊢ <;> omega

theorem GatherTask.Timing.gather (h : p.Timing) (hstep : gatherTaskStep p = some q) :
    q.Timing := by
  unfold GatherTask.Timing at h
  unfold gatherTaskStep at hstep
  cases hpc : p.pc <;> rw [hpc] at h hstep <;> dsimp only at h hstep
  case testSize =>
    cases hstep
    unfold GatherTask.Timing
    dsimp only
    by_cases hempty : p.threads.tables.machineList = []
    · rw [if_pos hempty]
      dsimp only
      omega
    · rw [if_neg hempty]
      trivial
  case napping wake | waiting wake | sleeping wake =>
    split at hstep <;> cases hstep
    trivial
  case time =>
    cases hstep
    exact rfl
  case convert now | convertAfter now =>
    cases hstep
    exact h
  case testSecond =>
    split at hstep
    · next hsec =>
      cases hstep
      exact ⟨Int.le_add_of_nonneg_right (by decide), le_rfl, fun _ => h ▸ hsec⟩
    · cases hstep
      trivial
  case scan =>
    cases hstep
    have hplace : p.scanStep.pc = .timeAfter ∨ p.scanStep.pc = .scan := ite_eq_or_eq _ _ _
    unfold GatherTask.Timing
    rcases hplace with hplace | hplace <;> rw [hplace] <;> trivial
  case timeAfter =>
    cases hstep
    exact rfl
  case sleep =>
    cases hstep
    unfold GatherTask.Timing tmSec
    dsimp only
    omega

/-! ### From minute to minute -/

/-- In the current minute, `gather_task` is still to start the machine. -/
def GatherTask.Pending (p : GatherTask) (m : Bytes) : Prop :=
  match p.pc with
  | .testSize | .napping _ | .time | .convert _ | .testSecond | .waiting _ => tmSec p.clock = 0
  | .scan => p.threads.Ahead m
  | .timeAfter | .convertAfter _ | .sleep | .sleeping _ => False

/-- A machine that is listed since time `c₀` was started in every minute whose second 0 came since
then, or is to be started in this one. -/
structure ServedSince (m : Bytes) (c₀ : Int) (p : GatherTask) : Prop where
  listed : m ∈ p.threads.tables.machineList
  since : c₀ ≤ p.clock
  nap : ∀ wake, p.pc = .napping wake → wake ≤ c₀ + 1
  past : ∀ k, c₀ < 60 * k → k < p.clock / 60 → (m, k) ∈ p.started
  now : c₀ < 60 * (p.clock / 60) → (m, p.clock / 60) ∈ p.started ∨ p.Pending m

/-- A statement that leaves the clock and the list alone. -/
theorem ServedSince.gather_of (hp : ServedSince m c₀ p)
    (hlist : q.threads.tables.machineList = p.threads.tables.machineList)
    (hclock : q.clock = p.clock) (hstarted : ∀ e ∈ p.started, e ∈ q.started)
    (hnap : ∀ wake, q.pc ≠ .napping wake)
    (hpending : p.Pending m → (m, p.clock / 60) ∈ q.started ∨ q.Pending m) :
    ServedSince m c₀ q where
  listed := hlist ▸ hp.listed
  since := hclock ▸ hp.since
  nap := fun wake h => absurd h (hnap wake)
  past := by
    rw [hclock]
    exact fun k hk hlt => hstarted _ (hp.past k hk hlt)
  now := by
    rw [hclock]
    intro hk
    rcases hp.now hk with hmem | hpend
    · exact Or.inl (hstarted _ hmem)
    · exact hpending hpend

theorem ServedSince.gather (hp : ServedSince m c₀ p) (hinv : TaskInv p)
    (hasked : p.threads.tables.blacklist.read m 0 = 0) (hstep : gatherTaskStep p = some q) :
    ServedSince m c₀ q := by
  have hstarted : ∀ e ∈ p.started, e ∈ q.started :=
    fun e he => mem_started_gatherTaskStep hstep he
  unfold gatherTaskStep at hstep
  cases hpc : p.pc <;> rw [hpc] at hstep <;> dsimp only at hstep
  case testSize =>
    rw [if_neg (List.ne_nil_of_mem hp.listed)] at hstep
    cases hstep
    refine hp.gather_of rfl rfl hstarted (by simp) fun hpend => Or.inr ?_
    simpa only [GatherTask.Pending, hpc] using hpend
  case napping wake | waiting wake =>
    split at hstep <;> cases hstep
    refine hp.gather_of rfl rfl hstarted (by simp) fun hpend => Or.inr ?_
    simpa only [GatherTask.Pending, hpc] using hpend
  case time | convert now =>
    cases hstep
    refine hp.gather_of rfl rfl hstarted (by simp) fun hpend => Or.inr ?_
    simpa only [GatherTask.Pending, hpc] using hpend
  case testSecond =>
    split at hstep <;> cases hstep
    · refine hp.gather_of rfl rfl hstarted (by simp) fun hpend => Or.inr ?_
      simpa only [GatherTask.Pending, hpc] using hpend
    · -- a scan begins with the whole list
      exact hp.gather_of rfl rfl hstarted (by simp) fun _ => Or.inr hp.listed
  case scan =>
    cases hstep
    have hplace : p.scanStep.pc = .timeAfter ∨ p.scanStep.pc = .scan := ite_eq_or_eq _ _ _
    refine hp.gather_of (scannerStep_list p.threads) rfl hstarted ?_ fun hpend => ?_
    · rcases hplace with hplace | hplace <;> simp [hplace]
    · simp only [GatherTask.Pending, hpc] at hpend
      refine (scanStep_ahead hinv hpc hpend hasked).symm.imp_right fun ⟨hscan, hahead⟩ => ?_
      simpa only [GatherTask.Pending, hscan] using hahead
  case timeAfter | convertAfter now | sleep =>
    cases hstep
    refine hp.gather_of rfl rfl hstarted (by simp) fun hpend => ?_
    simp only [GatherTask.Pending, hpc] at hpend
  case sleeping wake =>
    split at hstep <;> cases hstep
    refine hp.gather_of rfl rfl hstarted (by simp) fun hpend => ?_
    simp only [GatherTask.Pending, hpc] at hpend

/-- When a minute is over, `gather_task` has started the machine: only a wait of one second leads
into the next minute. -/
theorem ServedSince.minute_over (hp : ServedSince m c₀ p) (htiming : p.Timing) {c k : Int}
    (hmay : p.pc.MayElapse p.clock c) (hk : c₀ < 60 * k) (hle : p.clock / 60 ≤ k)
    (hlt : k < c / 60) : k = p.clock / 60 ∧ ¬ p.Pending m := by
  unfold GatherTask.Timing tmSec at htiming
  unfold GatherTask.Pending tmSec
  cases hpc : p.pc <;> rw [hpc] at htiming hmay <;> dsimp only [TaskPc.MayElapse] at htiming hmay
  case napping wake =>
    have hwake := hp.nap wake hpc
    omega
  case waiting wake =>
    dsimp only
    omega
  all_goals omega

theorem ServedSince.pending_elsewhere (hp : ServedSince m c₀ p) (htiming : p.Timing)
    (ho : Elsewhere p q) (hmay : p.pc.MayElapse p.clock q.clock) (hk : c₀ < 60 * (q.clock / 60))
    (hpend : q.clock / 60 = p.clock / 60 → p.Pending m) : q.Pending m := by
  have hclock := ho.clock
  unfold GatherTask.Timing tmSec at htiming
  unfold GatherTask.Pending tmSec at hpend ⊢
  rw [ho.pc]
  cases hpc : p.pc <;> rw [hpc] at htiming hmay hpend <;>
    dsimp only [TaskPc.MayElapse] at htiming hmay hpend ⊢
  case napping wake =>
    have hwake := hp.nap wake hpc
    omega
  case waiting wake => omega
  case scan => exact (hpend hmay).mono ho.scanner ho.list
  case sleeping wake => exact hpend (by omega)
  case timeAfter | convertAfter now | sleep => exact hpend (hmay ▸ rfl)
  all_goals exact hmay ▸ hpend (hmay ▸ rfl)

theorem ServedSince.elsewhere (hp : ServedSince m c₀ p) (htiming : p.Timing) (ho : Elsewhere p q)
    (hmay : p.pc.MayElapse p.clock q.clock) : ServedSince m c₀ q where
  listed := ho.list.subset hp.listed
  since := hp.since.trans ho.clock
  nap := by
    rw [ho.pc]
    exact hp.nap
  past := by
    intro k hk hlt
    rw [ho.started]
    rcases lt_or_ge k (p.clock / 60) with hbefore | hle
    · exact hp.past k hk hbefore
    · obtain ⟨rfl, hnone⟩ := hp.minute_over htiming hmay hk hle hlt
      exact (hp.now hk).resolve_right hnone
  now := by
    intro hk
    rw [ho.started]
    by_cases hminute : q.clock / 60 = p.clock / 60
    · rw [hminute]
      refine (hp.now (hminute ▸ hk)).imp_right fun hpend => ?_
      exact hp.pending_elsewhere htiming ho hmay hk fun _ => hpend
    · exact Or.inr (hp.pending_elsewhere htiming ho hmay hk fun h => absurd h hminute)

/-- The clock follows the statements. -/
theorem GatherTask.Timing.step (h : p.Timing) (hp : TaskInv p) {e : TaskEvent}
    (hontime : OnTime p e) (hstep : taskStep p e = some q) : q.Timing := by
  rcases taskStep_cases hp hstep with ⟨-, hgather⟩ | ⟨ho, hclock⟩
  · exact h.gather hgather
  · exact h.elsewhere ho (hontime.mayElapse h hclock)

theorem ServedSince.step (h : ServedSince m c₀ p) (hp : TaskInv p) (htiming : p.Timing)
    {e : TaskEvent} (hontime : OnTime p e) (hasked : p.threads.tables.blacklist.read m 0 = 0)
    (hstep : taskStep p e = some q) : ServedSince m c₀ q := by
  rcases taskStep_cases hp hstep with ⟨-, hgather⟩ | ⟨ho, hclock⟩
  · exact h.gather hp hasked hgather
  · exact h.elsewhere htiming ho (hontime.mayElapse htiming hclock)

/-- A machine is followed from any moment on. -/
theorem servedSince_of_mem (hm : m ∈ p.threads.tables.machineList) (htiming : p.Timing) :
    ServedSince m p.clock p where
  listed := hm
  since := le_rfl
  nap := by
    intro wake hpc
    simp only [GatherTask.Timing, hpc] at htiming
    exact htiming.2
  past := by omega
  now := by omega

end

/-- For every run of the threads in which `gather_task` is on time: a machine that is on the list,
and not blacklisted from then on, is started exactly once in every minute that begins and ends
later. -/
theorem gathered_every_minute (windowsList linuxList : Table Int Bytes) (clock tmClock : Int)
    {before events : List TaskEvent} {p q : GatherTask} {m : Bytes}
    (hbefore : run taskStep before (GatherTask.start windowsList linuxList clock tmClock) = some p)
    (hontime : AllSteps taskStep OnTime before
      (GatherTask.start windowsList linuxList clock tmClock))
    (hm : m ∈ p.threads.tables.machineList) (hrun : run taskStep events p = some q)
    (hasked : AllSteps taskStep
      (fun s e => OnTime s e ∧ s.threads.tables.blacklist.read m 0 = 0) events p) :
    ∀ k, p.clock < 60 * k → 60 * (k + 1) ≤ q.clock → q.started.count (m, k) = 1 := by
  have hfirst : ∀ s e t, TaskInv s ∧ s.Timing → OnTime s e → taskStep s e = some t →
      TaskInv t ∧ t.Timing :=
    fun s e t hs hon h => ⟨hs.1.step h, hs.2.step hs.1 hon h⟩
  have hkept : ∀ s e t, (TaskInv s ∧ s.Timing) ∧ ServedSince m p.clock s →
      OnTime s e ∧ s.threads.tables.blacklist.read m 0 = 0 → taskStep s e = some t →
      (TaskInv t ∧ t.Timing) ∧ ServedSince m p.clock t :=
    fun s e t hs hok h =>
      ⟨hfirst s e t hs.1 hok.1 h, hs.2.step hs.1.1 hs.1.2 hok.1 hok.2 h⟩
  have hp : TaskInv p ∧ p.Timing :=
    run_invariant_of_allSteps hfirst
      ⟨taskInv_start windowsList linuxList clock tmClock, trivial⟩ hontime hbefore
  obtain ⟨⟨hq, -⟩, hserved⟩ :=
    run_invariant_of_allSteps hkept ⟨hp, servedSince_of_mem hm hp.2⟩ hasked hrun
  intro k hbegins hends
  exact List.count_eq_one_of_mem hq.once (hserved.past k hbegins (by omega))

/-- From second 59 on, `gather_task` waits for minute 1, its scan takes 10 seconds, and minute 2
comes. -/
def minuteOne : List TaskEvent :=
  List.replicate 4 .gather ++ .elapse 1 :: List.replicate 5 .gather ++ .elapse 10 ::
    List.replicate 5 .gather ++ .elapse 49 :: List.replicate 5 .gather ++ [.elapse 1]

theorem gathered_every_minute_one :
    ∃ q, (run taskStep pcListed (GatherTask.start ∅ ∅ 59 0)).bind (run taskStep minuteOne)
        = some q ∧
      q.started.count ([ch 'p', ch 'c'], 1) = 1 := by
  have hlisted : (run taskStep pcListed (GatherTask.start ∅ ∅ 59 0)).map
      (fun p => decide (p.clock = 59 ∧ [ch 'p', ch 'c'] ∈ p.threads.tables.machineList ∧
        AllSteps taskStep (fun s e =>
          OnTime s e ∧ s.threads.tables.blacklist.read [ch 'p', ch 'c'] 0 = 0) minuteOne p)) =
        some true := by
    decide +kernel
  have hends : ((run taskStep pcListed (GatherTask.start ∅ ∅ 59 0)).bind
      (run taskStep minuteOne)).map GatherTask.clock = some 120 := by
    decide +kernel
  obtain ⟨p, hbefore, hp⟩ := Option.map_eq_some_iff.mp hlisted
  obtain ⟨hclock, hm, hasked⟩ := of_decide_eq_true hp
  rw [hbefore, Option.bind_some] at hends
  obtain ⟨q, hrun, hq⟩ := Option.map_eq_some_iff.mp hends
  refine ⟨q, Option.bind_eq_some_iff.mpr ⟨p, hbefore, hrun⟩, ?_⟩
  exact gathered_every_minute ∅ ∅ 59 0 hbefore (by decide +kernel) hm hrun hasked 1
    (by rw [hclock]; decide) (by rw [hq]; decide)

end Monitoring.Server
