import Monitoring.Client.Launches
import Monitoring.Proofs.MeasuredMinute

/-!
# `Monitoring.Proofs.Launches`: how often a script runs in its minute

Nothing records that a script has run. What keeps `execute_script` from running it again is the time
a cycle takes: at least 59 seconds if somebody is logged in, and none at all otherwise.

`LaunchInv` follows a cycle. `launched_once` says that no script runs twice for a minute as long as
there are no two calls in a minute in which a script is due. Where somebody is logged in this is
nearly always so: the loop takes 59 seconds, and these lead out of the minute, unless it was
entered in second 0.
-/

set_option autoImplicit false

namespace Monitoring.Client

open Monitoring.Lib

/-- Whenever `execute_script` is called in a minute in which a script is due, and which the call
before it has looked at, then somebody was logged in, and it is not 59 seconds since the loop was
entered in second 0. Whenever a test finds a script due, the time in the object of `localtime` is
not ahead of the clock. -/
def CallsApart (zone : Int → Int) (scripts2 : Table Bytes (List Bytes)) (p : LaunchState) :
    LaunchEvent → Prop
  | .client (.gather _) =>
      p.gather.pc = .script →
        (p.pending = none →
          (∃ cmd ∈ scriptCommands scripts2,
              commandDue scripts2 (localTime zone p.gather.clock) cmd = some true) →
            ∀ c ∈ p.seen, c / 60 = p.gather.clock / 60 →
              p.gather.loggedIn = true ∧
                ¬ (tmSec p.entered = 0 ∧ p.gather.clock = p.entered + 59)) ∧
        ∀ cmds ∈ p.pending, ∀ cmd ∈ cmds.head?,
          commandDue scripts2 (localTime zone p.tmClock) cmd = some true →
            p.tmClock ≤ p.gather.clock
  | _ => True

instance (zone : Int → Int) (scripts2 : Table Bytes (List Bytes)) (p : LaunchState) :
    (e : LaunchEvent) → Decidable (CallsApart zone scripts2 p e)
  | .client (.gather _) =>
      inferInstanceAs (Decidable (_ → (_ → _ → ∀ c ∈ _, _ → _ ∧ ¬ _) ∧ ∀ cmds ∈ _, _))
  | .client (.elapse _) | .client (.request _ _) | .client (.callHome _) | .localtime _ =>
      isTrue trivial

section
variable {zone : Int → Int} {scripts2 : Table Bytes (List Bytes)} {p q : LaunchState}

/-! ### The call and its steps -/

theorem launchStep_script {input : GatherInput} (hpc : p.gather.pc = .script) :
    launchStep zone scripts2 p (.client (.gather input)) = p.execute zone scripts2 := if_pos hpc

/-- The call reads the clock. -/
theorem execute_none (h : p.pending = none) :
    p.execute zone scripts2 = some { p with
      gather := { p.gather with tmSec := tmSec p.gather.clock }
      tmClock := p.gather.clock
      pending := some (scriptCommands scripts2)
      seen := [p.gather.clock] } := by
  unfold LaunchState.execute
  rw [h]

/-- The call returns. -/
theorem execute_nil (h : p.pending = some []) :
    p.execute zone scripts2
      = some { p with gather := { p.gather with pc := .login }, pending := none } := by
  unfold LaunchState.execute
  rw [h]

/-- The test of a script. -/
theorem execute_cons {cmd : Bytes} {rest : List Bytes} (h : p.pending = some (cmd :: rest)) :
    p.execute zone scripts2
      = (commandDue scripts2 (localTime zone p.tmClock) cmd).map fun due =>
        { p with
          pending := some rest
          seen := p.seen ++ [p.tmClock]
          launched := if due then p.launched ++ [(cmd, p.tmClock / 60)] else p.launched } := by
  unfold LaunchState.execute
  rw [h]

/-- The tests of a call, if nothing comes in between. -/
theorem run_runScripts {input : GatherInput} {cmds launched : List Bytes}
    (hpc : p.gather.pc = .script) (hpending : p.pending = some cmds)
    (h : runScripts scripts2 (localTime zone p.tmClock) cmds = some launched) :
    ∃ q, run (launchStep zone scripts2) (List.replicate cmds.length (.client (.gather input))) p
        = some q ∧ q.gather = p.gather ∧ q.pending = some [] ∧
      q.launched = p.launched ++ launched.map fun cmd => (cmd, p.tmClock / 60) := by
  induction cmds generalizing p launched with
  | nil =>
      cases h
      exact ⟨p, rfl, rfl, hpending, by simp⟩
  | cons cmd rest ih =>
      obtain ⟨due, hdue, h⟩ := Option.bind_eq_some_iff.mp h
      obtain ⟨more, hmore, rfl⟩ := Option.map_eq_some_iff.mp h
      obtain ⟨p', hstep, hgather, htm, hrest, hlaunched⟩ : ∃ p',
          launchStep zone scripts2 p (.client (.gather input)) = some p' ∧
          p'.gather = p.gather ∧ p'.tmClock = p.tmClock ∧ p'.pending = some rest ∧
          p'.launched
            = if due then p.launched ++ [(cmd, p.tmClock / 60)] else p.launched := by
        rw [launchStep_script hpc, execute_cons hpending, hdue]
        exact ⟨_, rfl, rfl, rfl, rfl, rfl⟩
      obtain ⟨q, hrun, hq, hqpending, hqlaunched⟩ :=
        ih (by rw [hgather]; exact hpc) hrest (by rw [htm]; exact hmore)
      rw [htm] at hqlaunched
      refine ⟨q, ?_, hq.trans hgather, hqpending, ?_⟩
      · rw [List.length_cons, List.replicate_succ, run_cons, hstep]
        exact hrun
      · rw [hqlaunched, hlaunched]
        cases due <;> simp

/-- A call that nothing interrupts is the statement of `gatherStep`, and runs the scripts that
`executeScript` says. -/
theorem run_executeScript {input : GatherInput} {launched : List Bytes}
    (hpc : p.gather.pc = .script) (hpending : p.pending = none)
    (h : executeScript scripts2 (localTime zone p.gather.clock) = some launched) :
    ∃ q, run (launchStep zone scripts2)
        (List.replicate ((scriptCommands scripts2).length + 2) (.client (.gather input))) p
        = some q ∧ gatherStep input p.gather = some q.gather ∧ q.pending = none ∧
      q.launched = p.launched ++ launched.map fun cmd => (cmd, p.gather.clock / 60) := by
  obtain ⟨p', hstep, hgather, htm, hcmds, hlaunched⟩ : ∃ p',
      launchStep zone scripts2 p (.client (.gather input)) = some p' ∧
      p'.gather = { p.gather with tmSec := tmSec p.gather.clock } ∧
      p'.tmClock = p.gather.clock ∧ p'.pending = some (scriptCommands scripts2) ∧
      p'.launched = p.launched := by
    rw [launchStep_script hpc, execute_none hpending]
    exact ⟨_, rfl, rfl, rfl, rfl, rfl⟩
  have hpc' : p'.gather.pc = .script := by rw [hgather]; exact hpc
  obtain ⟨q, hrun, hq, hqpending, hqlaunched⟩ :=
    run_runScripts hpc' hcmds (by rw [htm]; exact h)
  refine ⟨{ q with gather := { q.gather with pc := .login }, pending := none }, ?_, ?_, rfl, ?_⟩
  · rw [List.replicate_succ, List.replicate_succ', run_cons, hstep, Option.bind_some, run_append,
      hrun, Option.bind_some, run_cons, launchStep_script (by rw [hq]; exact hpc'),
      execute_nil hqpending]
    rfl
  · unfold gatherStep
    rw [hpc, hq, hgather]
  · rw [← htm, ← hlaunched]
    exact hqlaunched

end

/-! ### What a cycle keeps -/

/-- Everything was launched for the minute of `c`, or for one before. -/
def LaunchState.LaunchedBy (p : LaunchState) (c : Int) : Prop := ∀ l ∈ p.launched, l.2 ≤ c / 60

/-- The loop is over: nothing was launched for this minute, unless it was entered in second 0. -/
def LaunchState.Ended (p : LaunchState) : Prop :=
  ∀ l ∈ p.launched, l.2 < p.gather.clock / 60 ∨
    tmSec p.entered = 0 ∧ l.2 = p.entered / 60 ∧ p.entered + 59 ≤ p.gather.clock

/-- A call of `execute_script` since `start`. The scripts that are left were launched before that,
and not in the minute of `start` if they are due in it. -/
structure LaunchState.Calling (zone : Int → Int) (scripts2 : Table Bytes (List Bytes))
    (p : LaunchState) (cmds : List Bytes) : Prop where
  nodup : cmds.Nodup
  fresh : ∃ start, start ≤ p.gather.clock ∧ start ≤ p.tmClock ∧
    ∀ cmd ∈ cmds, ∀ minute, (cmd, minute) ∈ p.launched → minute ≤ start / 60 ∧
      (minute = start / 60 → commandDue scripts2 (localTime zone start) cmd ≠ some true)

/-- What holds at each statement of `gather_data`. -/
def LaunchState.AtPc (zone : Int → Int) (scripts2 : Table Bytes (List Bytes)) (p : LaunchState) :
    Prop :=
  match p.gather.pc with
  | .script =>
      (p.pending = none → p.gather.loggedIn = true → p.Ended) ∧
        ∀ cmds ∈ p.pending, p.Calling zone scripts2 cmds
  | .login | .setup | .start | .logout => True
  | .test t | .mark t | .poll t _ | .wait t | .asleep t _ => p.entered = t ∧ p.LaunchedBy t
  | .build | .delete _ | .store _ => p.Ended
  | .cleanup => p.gather.loggedIn = true → p.Ended

/-- No script was launched twice for a minute, and what makes this last. -/
structure LaunchInv (zone : Int → Int) (scripts2 : Table Bytes (List Bytes)) (p : LaunchState) :
    Prop where
  nodup : p.launched.Nodup
  past : p.LaunchedBy p.gather.clock
  looked : ∀ l ∈ p.launched, ∃ c ∈ p.seen, l.2 = c / 60 ∨ l.2 < c / 60 ∧ c ≤ p.gather.clock
  returned : p.gather.pc ≠ .script → p.pending = none
  atPc : p.AtPc zone scripts2

/-- What other threads and the time can change. -/
structure Outside (p q : LaunchState) : Prop where
  pc : q.gather.pc = p.gather.pc
  loggedIn : q.gather.loggedIn = p.gather.loggedIn
  clock : p.gather.clock ≤ q.gather.clock
  tmClock : q.tmClock = p.tmClock ∨ p.gather.clock ≤ q.tmClock
  pending : q.pending = p.pending
  seen : q.seen = p.seen
  entered : q.entered = p.entered
  launched : q.launched = p.launched

section
variable {zone : Int → Int} {scripts2 : Table Bytes (List Bytes)} {p q : LaunchState}

/-! ### Events outside of `gather_data` -/

theorem outside_step {e : LaunchEvent} (h : launchStep zone scripts2 p e = some q)
    (he : ∀ input, e ≠ .client (.gather input)) : Outside p q := by
  cases e with
  | localtime minutes =>
      cases h
      refine ⟨rfl, rfl, Int.le_refl _, Or.inr ?_, rfl, rfl, rfl, rfl⟩
      dsimp only
      omega
  | client e =>
      cases e with
      | gather input => exact absurd rfl (he input)
      | elapse seconds =>
          cases h
          exact ⟨rfl, rfl, Int.le_add_of_nonneg_right (Int.natCast_nonneg seconds), Or.inl rfl,
            rfl, rfl, rfl, rfl⟩
      | callHome n =>
          cases h
          exact ⟨rfl, rfl, Int.le_refl _, Or.inl rfl, rfl, rfl, rfl, rfl⟩
      | request outcomes outside =>
          obtain ⟨t, ht, rfl⟩ := Option.map_eq_some_iff.mp h
          obtain ⟨r, -, rfl⟩ := requestStep_eq ht
          refine ⟨rfl, rfl, Int.le_refl _, ?_, rfl, rfl, rfl, rfl⟩
          dsimp only [LaunchState.after]
          split
          · exact Or.inr (Int.le_refl _)
          · exact Or.inl rfl

theorem LaunchState.LaunchedBy.mono {c d : Int} (h : p.LaunchedBy c) (hcd : c ≤ d) :
    p.LaunchedBy d := by
  intro l hl
  have hle := h l hl
  omega

theorem LaunchState.LaunchedBy.congr {c : Int} (h : p.LaunchedBy c)
    (hpq : q.launched = p.launched) : q.LaunchedBy c := by
  unfold LaunchState.LaunchedBy
  rwa [hpq]

theorem LaunchState.Ended.outside (h : p.Ended) (ho : Outside p q) : q.Ended := by
  intro l hl
  rw [ho.launched] at hl
  rw [ho.entered]
  have hclock := ho.clock
  rcases h l hl with hlt | ⟨hsec, hminute, hover⟩
  · exact Or.inl (by omega)
  · exact Or.inr ⟨hsec, hminute, by omega⟩

theorem LaunchState.Calling.outside {cmds : List Bytes} (h : p.Calling zone scripts2 cmds)
    (ho : Outside p q) : q.Calling zone scripts2 cmds := by
  obtain ⟨start, hclock, htm, hfresh⟩ := h.fresh
  refine ⟨h.nodup, start, hclock.trans ho.clock, ?_, by rw [ho.launched]; exact hfresh⟩
  rcases ho.tmClock with hsame | hnew
  · exact hsame ▸ htm
  · exact hclock.trans hnew

theorem LaunchState.AtPc.outside (h : p.AtPc zone scripts2) (ho : Outside p q) :
    q.AtPc zone scripts2 := by
  unfold LaunchState.AtPc at h ⊢
  rw [ho.pc, ho.pending, ho.loggedIn]
  cases hpc : p.gather.pc with
  | script =>
      rw [hpc] at h
      exact ⟨fun hnone hlogged => (h.1 hnone hlogged).outside ho,
        fun cmds hcmds => (h.2 cmds hcmds).outside ho⟩
  | login | setup | start | logout => trivial
  | test t | mark t | poll t j | wait t | asleep t wakes =>
      rw [hpc] at h
      exact ⟨ho.entered.trans h.1, h.2.congr ho.launched⟩
  | build | delete line | store line =>
      rw [hpc] at h
      exact h.outside ho
  | cleanup =>
      rw [hpc] at h
      exact fun hlogged => (h hlogged).outside ho

theorem launchInv_outside (h : LaunchInv zone scripts2 p) (ho : Outside p q) :
    LaunchInv zone scripts2 q := by
  refine ⟨ho.launched ▸ h.nodup, (h.past.congr ho.launched).mono ho.clock, ?_,
    by rw [ho.pc, ho.pending]; exact h.returned, h.atPc.outside ho⟩
  rw [ho.launched, ho.seen]
  intro l hl
  obtain ⟨c, hc, hsame | ⟨hlt, hclock⟩⟩ := h.looked l hl
  · exact ⟨c, hc, Or.inl hsame⟩
  · exact ⟨c, hc, Or.inr ⟨hlt, hclock.trans ho.clock⟩⟩

/-! ### The statements of `gather_data` -/

/-- Where the loop ends. The 59 seconds lead out of the minute, or began in its second 0. -/
theorem LaunchState.LaunchedBy.ended (h : p.LaunchedBy p.entered)
    (hclock : p.entered + 59 ≤ p.gather.clock) : p.Ended := by
  intro l hl
  have hle : l.2 ≤ p.entered / 60 := h l hl
  unfold tmSec
  omega

/-- The statement of `gather_data` behind another one. -/
theorem gatherStep_next {input : GatherInput} {s s' : GatherState}
    (h : gatherStep input s = some s') :
    match s.pc with
    | .script => s'.pc = .login
    | .login => s'.pc = .setup ∨ s'.pc = .logout
    | .setup => s'.pc = .start
    | .start => s'.pc = .test s.clock
    | .test t => s'.pc = .mark t ∨ s'.pc = .build ∧ t + 59 ≤ s.clock
    | .mark t => s'.pc = .poll t 0
    | .poll t _ => (∃ j, s'.pc = .poll t j) ∨ s'.pc = .wait t
    | .wait t => s'.pc = .test t ∨ ∃ wakes, s'.pc = .asleep t wakes
    | .asleep t _ => s'.pc = .wait t
    | .build => ∃ line, s'.pc = .delete line
    | .delete line => s'.pc = .store line
    | .store _ => s'.pc = .cleanup
    | .logout => s'.pc = .cleanup ∧ s'.loggedIn = false
    | .cleanup => s'.pc = .script ∧ s'.loggedIn = s.loggedIn := by
  unfold gatherStep at h
  cases hpc : s.pc with
  | script | start | mark t | delete line | store line =>
      rw [hpc] at h
      cases h
      rfl
  | login =>
      rw [hpc] at h
      cases h
      dsimp only
      split
      · exact Or.inl rfl
      · exact Or.inr rfl
  | setup =>
      rw [hpc] at h
      obtain ⟨-, h⟩ := Option.ite_none_left_eq_some.mp h
      cases h
      rfl
  | test t =>
      rw [hpc] at h
      cases h
      dsimp only
      split
      · exact Or.inl rfl
      · exact Or.inr ⟨rfl, by omega⟩
  | poll t j =>
      rw [hpc] at h
      dsimp only at h
      split at h <;> cases h
      · exact Or.inl ⟨j + 1, rfl⟩
      · exact Or.inr rfl
  | wait t =>
      rw [hpc] at h
      cases h
      dsimp only
      split
      · exact Or.inr ⟨_, rfl⟩
      · exact Or.inl rfl
  | asleep t wakes =>
      rw [hpc] at h
      obtain ⟨-, h⟩ := Option.ite_none_right_eq_some.mp h
      cases h
      rfl
  | build =>
      rw [hpc] at h
      dsimp only at h
      split at h <;> cases h <;> exact ⟨_, rfl⟩
  | logout | cleanup =>
      rw [hpc] at h
      cases h
      exact ⟨rfl, rfl⟩

/-- A statement of `gather_data` outside of `execute_script` keeps what holds at its place. -/
theorem atPc_gather {input : GatherInput} {s : GatherState} (hinv : LaunchInv zone scripts2 p)
    (hpc : p.gather.pc ≠ .script) (h : gatherStep input p.gather = some s) :
    (p.after (.gather input) s).AtPc zone scripts2 := by
  have hpast := hinv.past
  have hreturned := hinv.returned hpc
  have hat := hinv.atPc
  have hnext := gatherStep_next h
  obtain ⟨q, hq⟩ : ∃ q, p.after (.gather input) s = q := ⟨_, rfl⟩
  have hgather : q.gather = s := hq ▸ rfl
  have hlaunched : q.launched = p.launched := hq ▸ rfl
  have hpending : q.pending = p.pending := hq ▸ rfl
  have hentered : q.entered
      = if p.gather.entersLoop (.gather input) then p.gather.clock else p.entered := hq ▸ rfl
  have hsame : p.gather.pc ≠ .start → q.entered = p.entered := fun hne => by
    rw [hentered, if_neg]
    simpa [GatherState.entersLoop] using hne
  have hended : p.Ended → p.gather.pc ≠ .start → q.Ended := by
    intro hended hne l hl
    rw [hsame hne, hgather, gatherStep_clock h]
    exact hended l (hlaunched ▸ hl)
  have hloop : ∀ t, p.entered = t ∧ p.LaunchedBy t → p.gather.pc ≠ .start →
      q.entered = t ∧ q.LaunchedBy t :=
    fun t hin hne => ⟨(hsame hne).trans hin.1, hin.2.congr hlaunched⟩
  unfold LaunchState.AtPc at hat ⊢
  rw [hq, hgather]
  cases hcase : p.gather.pc with
  | script => exact absurd hcase hpc
  | login =>
      rw [hcase] at hnext
      rcases hnext with hs | hs <;> rw [hs] <;> trivial
  | setup =>
      rw [hcase] at hnext
      rw [hnext]
      trivial
  | start =>
      rw [hcase] at hnext
      rw [hnext]
      refine ⟨?_, hpast.congr hlaunched⟩
      rw [hentered, if_pos]
      simpa [GatherState.entersLoop] using hcase
  | test t =>
      rw [hcase] at hnext hat
      rcases hnext with hs | ⟨hs, hover⟩ <;> rw [hs]
      · exact hloop t hat (by rw [hcase]; simp)
      · obtain ⟨rfl, hlaunched⟩ := hat
        exact hended (hlaunched.ended hover) (by rw [hcase]; simp)
  | mark t =>
      rw [hcase] at hnext hat
      rw [hnext]
      exact hloop t hat (by rw [hcase]; simp)
  | poll t j =>
      rw [hcase] at hnext hat
      rcases hnext with ⟨j', hs⟩ | hs <;> rw [hs] <;> exact hloop t hat (by rw [hcase]; simp)
  | wait t =>
      rw [hcase] at hnext hat
      rcases hnext with hs | ⟨wakes, hs⟩ <;> rw [hs] <;> exact hloop t hat (by rw [hcase]; simp)
  | asleep t wakes =>
      rw [hcase] at hnext hat
      rw [hnext]
      exact hloop t hat (by rw [hcase]; simp)
  | build =>
      rw [hcase] at hnext hat
      obtain ⟨line, hs⟩ := hnext
      rw [hs]
      exact hended hat (by rw [hcase]; simp)
  | delete line =>
      rw [hcase] at hnext hat
      rw [hnext]
      exact hended hat (by rw [hcase]; simp)
  | store line =>
      rw [hcase] at hnext hat
      rw [hnext]
      exact fun _ => hended hat (by rw [hcase]; simp)
  | logout =>
      rw [hcase] at hnext
      rw [hnext.1]
      exact fun hlogged => absurd hlogged (by rw [hnext.2]; decide)
  | cleanup =>
      rw [hcase] at hnext hat
      rw [hnext.1, hpending, hreturned, hnext.2]
      exact ⟨fun _ hlogged => hended (hat hlogged) (by rw [hcase]; simp), by simp⟩

theorem launchInv_gather {input : GatherInput} {s : GatherState}
    (hinv : LaunchInv zone scripts2 p) (hpc : p.gather.pc ≠ .script)
    (h : gatherStep input p.gather = some s) :
    LaunchInv zone scripts2 (p.after (.gather input) s) := by
  have hclock := gatherStep_clock h
  refine ⟨hinv.nodup, ?_, ?_, fun _ => hinv.returned hpc, atPc_gather hinv hpc h⟩
  · change p.LaunchedBy s.clock
    rw [hclock]
    exact hinv.past
  · change ∀ l ∈ p.launched, ∃ c ∈ p.seen, l.2 = c / 60 ∨ l.2 < c / 60 ∧ c ≤ s.clock
    rw [hclock]
    exact hinv.looked

/-! ### The statements of `execute_script` -/

/-- At the call, a script that is due has not been launched for this minute. -/
theorem fresh_call {input : GatherInput} (hinv : LaunchInv zone scripts2 p)
    (hpc : p.gather.pc = .script) (hnone : p.pending = none)
    (hok : CallsApart zone scripts2 p (.client (.gather input))) {cmd : Bytes}
    (hcmd : cmd ∈ scriptCommands scripts2)
    (hdue : commandDue scripts2 (localTime zone p.gather.clock) cmd = some true) :
    (cmd, p.gather.clock / 60) ∉ p.launched := by
  intro hl
  have hcall := (hok hpc).1 hnone ⟨cmd, hcmd, hdue⟩
  obtain ⟨c, hc, hsame | ⟨hlt, hclock⟩⟩ := hinv.looked _ hl
  · -- the call before has looked at this minute, so it was the loop that took the time
    obtain ⟨hlogged, hslow⟩ := hcall c hc hsame.symm
    have hat := hinv.atPc
    unfold LaunchState.AtPc at hat
    rw [hpc] at hat
    rcases hat.1 hnone hlogged _ hl with hlt | ⟨hsec, hminute, hover⟩
    · exact Int.lt_irrefl _ hlt
    · refine hslow ⟨hsec, ?_⟩
      unfold tmSec at hsec
      dsimp only at hminute
      omega
  · dsimp only at hlt
    omega

/-- A script that a test finds due has not been launched for the minute in the object. -/
theorem LaunchState.Calling.not_mem {cmd : Bytes} {rest : List Bytes}
    (h : p.Calling zone scripts2 (cmd :: rest))
    (hdue : commandDue scripts2 (localTime zone p.tmClock) cmd = some true) :
    (cmd, p.tmClock / 60) ∉ p.launched := by
  intro hl
  obtain ⟨start, -, htm, hfresh⟩ := h.fresh
  obtain ⟨hle, hnot⟩ := hfresh cmd List.mem_cons_self _ hl
  have hsame : p.tmClock / 60 = start / 60 := by omega
  exact hnot hsame (localTime_congr hsame ▸ hdue)

/-- In a call, what holds is `Calling`. -/
theorem LaunchState.Calling.atPc {cmds : List Bytes} (h : p.Calling zone scripts2 cmds)
    (hpc : p.gather.pc = .script) (hpending : p.pending = some cmds) :
    p.AtPc zone scripts2 := by
  unfold LaunchState.AtPc
  rw [hpc, hpending]
  refine ⟨fun hnone => (Option.some_ne_none _ hnone).elim, fun cmds' hcmds => ?_⟩
  cases hcmds
  exact h

/-- The call begins. -/
theorem launchInv_call {input : GatherInput} (hinv : LaunchInv zone scripts2 p)
    (hpc : p.gather.pc = .script) (hnone : p.pending = none)
    (hok : CallsApart zone scripts2 p (.client (.gather input)))
    (h : p.execute zone scripts2 = some q) : LaunchInv zone scripts2 q := by
  have hpast := hinv.past
  rw [execute_none hnone] at h
  cases h
  refine ⟨hinv.nodup, hpast, fun l hl => ?_, fun hne => absurd hpc hne, ?_⟩
  · refine ⟨p.gather.clock, List.mem_singleton_self _, ?_⟩
    rcases (hpast l hl).lt_or_eq with hlt | heq
    · exact Or.inr ⟨hlt, Int.le_refl _⟩
    · exact Or.inl heq
  · refine LaunchState.Calling.atPc ⟨nodup_scriptCommands, p.gather.clock, Int.le_refl _,
      Int.le_refl _, fun cmd hcmd minute hl => ⟨hpast _ hl, fun hsame hdue => ?_⟩⟩ hpc rfl
    exact fresh_call hinv hpc hnone hok hcmd hdue (hsame ▸ hl)

/-- The call looks at a script. -/
theorem launchInv_test {input : GatherInput} {cmd : Bytes} {rest : List Bytes}
    (hinv : LaunchInv zone scripts2 p) (hpc : p.gather.pc = .script)
    (hpending : p.pending = some (cmd :: rest)) (hcalling : p.Calling zone scripts2 (cmd :: rest))
    (hok : CallsApart zone scripts2 p (.client (.gather input)))
    (h : p.execute zone scripts2 = some q) : LaunchInv zone scripts2 q := by
  rw [execute_cons hpending] at h
  obtain ⟨due, hdue, rfl⟩ := Option.map_eq_some_iff.mp h
  obtain ⟨start, hclock, htm, hfresh⟩ := hcalling.fresh
  obtain ⟨hcmd, hrest⟩ := List.nodup_cons.mp hcalling.nodup
  have hseen : ∀ l ∈ p.launched, ∃ c ∈ p.seen ++ [p.tmClock],
      l.2 = c / 60 ∨ l.2 < c / 60 ∧ c ≤ p.gather.clock := by
    intro l hl
    obtain ⟨c, hc, hlooked⟩ := hinv.looked l hl
    exact ⟨c, List.mem_append_left _ hc, hlooked⟩
  cases due with
  | false =>
      refine ⟨hinv.nodup, hinv.past, hseen, fun hne => absurd hpc hne, ?_⟩
      refine LaunchState.Calling.atPc ⟨hrest, start, hclock, htm, ?_⟩ hpc rfl
      exact fun c hc => hfresh c (List.mem_cons_of_mem _ hc)
  | true =>
      have hahead : p.tmClock ≤ p.gather.clock := (hok hpc).2 _ hpending cmd rfl hdue
      have hnew := hcalling.not_mem hdue
      have hmem : ∀ l, l ∈ p.launched ++ [(cmd, p.tmClock / 60)] →
          l ∈ p.launched ∨ l = (cmd, p.tmClock / 60) :=
        fun l hl => (List.mem_append.mp hl).imp_right List.mem_singleton.mp
      refine ⟨?_, fun l hl => ?_, fun l hl => ?_, fun hne => absurd hpc hne, ?_⟩
      · exact List.nodup_append_comm.mp (List.nodup_cons.mpr ⟨hnew, hinv.nodup⟩)
      · rcases hmem l hl with hl | rfl
        · exact hinv.past l hl
        · change p.tmClock / 60 ≤ p.gather.clock / 60
          omega
      · rcases hmem l hl with hl | rfl
        · exact hseen l hl
        · exact ⟨p.tmClock, by simp, Or.inl rfl⟩
      · refine LaunchState.Calling.atPc ⟨hrest, start, hclock, htm, fun c hc minute hl => ?_⟩
          hpc rfl
        rcases hmem _ hl with hl | hl
        · exact hfresh c (List.mem_cons_of_mem _ hc) minute hl
        · -- the script that was launched here is not looked at again
          exact absurd ((Prod.mk.inj hl).1 ▸ hc) hcmd

theorem launchInv_execute {input : GatherInput} (hinv : LaunchInv zone scripts2 p)
    (hpc : p.gather.pc = .script) (hok : CallsApart zone scripts2 p (.client (.gather input)))
    (h : p.execute zone scripts2 = some q) : LaunchInv zone scripts2 q := by
  cases hpending : p.pending with
  | none => exact launchInv_call hinv hpc hpending hok h
  | some cmds =>
      have hat := hinv.atPc
      unfold LaunchState.AtPc at hat
      rw [hpc] at hat
      cases cmds with
      | nil =>
          rw [execute_nil hpending] at h
          cases h
          exact ⟨hinv.nodup, hinv.past, hinv.looked, fun _ => rfl, trivial⟩
      | cons cmd rest =>
          exact launchInv_test hinv hpc hpending (hat.2 _ hpending) hok h

theorem launchInv_step {e : LaunchEvent} (hinv : LaunchInv zone scripts2 p)
    (hok : CallsApart zone scripts2 p e) (h : launchStep zone scripts2 p e = some q) :
    LaunchInv zone scripts2 q := by
  by_cases he : ∃ input, e = .client (.gather input)
  · obtain ⟨input, rfl⟩ := he
    by_cases hpc : p.gather.pc = .script
    · rw [launchStep_script hpc] at h
      exact launchInv_execute hinv hpc hok h
    · obtain ⟨s, hs, rfl⟩ := Option.map_eq_some_iff.mp ((if_neg hpc).symm.trans h)
      exact launchInv_gather hinv hpc hs
  · exact launchInv_outside hinv (outside_step h fun input heq => he ⟨input, heq⟩)

end

/-! ### Runs -/

/-- If the calls in which a script is due come in different minutes, no script is launched twice for
a minute. -/
theorem launched_once {zone : Int → Int} {scripts2 : Table Bytes (List Bytes)}
    {clock eventSize programCount : Int} {es : List LaunchEvent} {p : LaunchState}
    (hok : AllSteps (launchStep zone scripts2) (CallsApart zone scripts2) es
      (LaunchState.begin clock eventSize programCount))
    (h : run (launchStep zone scripts2) es (LaunchState.begin clock eventSize programCount)
      = some p) : p.launched.Nodup := by
  have hbegin : LaunchInv zone scripts2 (LaunchState.begin clock eventSize programCount) := by
    refine ⟨List.nodup_nil, ?_, ?_, fun _ => rfl, ?_, ?_⟩
    · exact fun l hl => absurd hl List.not_mem_nil
    · exact fun l hl => absurd hl List.not_mem_nil
    · exact fun _ hlogged => by cases hlogged
    · exact fun cmds hcmds => by cases hcmds
  exact (run_invariant_of_allSteps (fun _ _ _ => launchInv_step) hbegin hok h).nodup

/-- SCRIPTS2 with one script, for every day at 2:00 AM. -/
def atTwo : Table Bytes (List Bytes) :=
  Table.insertNew ∅ (str "test.pl") (List.replicate 7 (str "2:00"))

/-- The statements of `gather_data` while ann is logged in. -/
def statements (n : Nat) : List LaunchEvent :=
  List.replicate n (.client (.gather (annInput 1)))

/-- A cycle that begins at second 1 and polls once, and the next call. -/
def cycleAndCall : List LaunchEvent :=
  statements 11 ++ [.client (.elapse 59)] ++ statements 10

theorem launched_once_cycle :
    ∃ p, run (launchStep (fun _ => 0) atTwo) cycleAndCall (LaunchState.begin 1000000801 32 1)
        = some p ∧ p.launched = [(str "test.pl", 16666680)] ∧ p.launched.Nodup :=
  ⟨_, rfl, by decide +kernel,
    @launched_once (fun _ => 0) atTwo 1000000801 32 1 cycleAndCall _ (by decide +kernel) rfl⟩

/-- Nobody is logged in, and the next cycle begins in the same second. -/
theorem launched_once_fails :
    ∃ p, run (launchStep (fun _ => 0) atTwo)
        (List.replicate 9 (.client (.gather ⟨[], 1, 0⟩))) (LaunchState.begin 1000000801 32 1)
        = some p ∧ p.launched = [(str "test.pl", 16666680), (str "test.pl", 16666680)] ∧
      ¬ p.launched.Nodup :=
  ⟨_, rfl, by decide +kernel, by decide +kernel⟩

end Monitoring.Client
