import Monitoring.Lib.Run
import Monitoring.Server.MachineStatus
import Monitoring.Server.Registry

/-!
# `Monitoring.Proofs.MachineStatus`: what is written to `machine_status`

`RightStatus` is what a statement should write: 1, 2 or 3, and the status the map holds for the
machine that the statement names. Two of the four statements miss it. `db_machine_insert` runs when
nothing has asked the machine yet, so it writes the 0 that `operator[]` has just created. And the
`UPDATE` for a machine that `update_mstatus` has inserted itself writes the name of the machine in
the place of its status.

`handed_right` says that the others write the right values, in every run. The invariant is that the
values of the map are among 0, 1, 2 and 3 (`StatusRange`).
-/

set_option autoImplicit false

namespace Monitoring.Server

open Monitoring.Lib

/-! ### What a statement should write -/

/-- An unset status counts as logged out. -/
def counted (status : Int) : Int := if status = 0 then 2 else status

/-- The value is 1, 2 or 3, and it is the status of the machine. -/
def IsStatusOf (t : Table Bytes Int) (name : Bytes) (status : Int) : Prop :=
  (status = 1 ∨ status = 2 ∨ status = 3) ∧ status = counted (t.read name 0)

/-- An `INSERT` names the machine, by a name that leaves the statement what it is, and an `UPDATE`
names the id of its row. -/
def RightStatus (same : Bytes → Bytes → Bool) (h : Handed) : Prop :=
  match h.statement with
  | .insertMachine name status => Plain name ∧ IsStatusOf h.mapMnameStatus name status
  | .updateMachine status _ machineId =>
      ∃ name n, Names same h.machine machineId name ∧ IsStatusOf h.mapMnameStatus name n ∧
        status = printDec n
  | _ => True

/-- Every statement so far wrote the right value. -/
def WritesRight (same : Bytes → Bytes → Bool) (s : StatusState) : Prop :=
  ∀ h ∈ s.handed, RightStatus same h

/-- The map holds statuses, and zeros. -/
def StatusRange (t : Table Bytes Int) : Prop := ∀ name, 0 ≤ t.read name 0 ∧ t.read name 0 ≤ 3

/-! ### When they do -/

/-- The answers at an entry whose first query runs. If it finds no row, then the `INSERT` raises, or
the second query gives no result. -/
def VisitReplies.FindsRow (r : VisitReplies) (name : Bytes) : Prop :=
  ∀ ids, r.machine = .rows ids →
    Plain name ∧ (ids = [] → r.insert = .badQuery ∨ ∀ ids', r.newMachine ≠ .rows ids')

/-- A registration that comes to its `INSERT` finds a status, and a pass finds the rows of its
entries, both for plain names. -/
def FindsStatus (s : StatusState) : StatusAction → Prop
  | .register name r => r.Inserts → Plain name ∧ s.mapMnameStatus.read name 0 ≠ 0
  | .visit r _ _ => ∀ name, s.it = some name → r.FindsRow name
  | _ => True

section
variable {same : Bytes → Bytes → Bool} {s t : StatusState}

theorem StatusRange.set {m : Table Bytes Int} (h : StatusRange m) (name : Bytes) {status : Int}
    (h0 : 0 ≤ status) (h3 : status ≤ 3) : StatusRange (m.set name status) := by
  intro name'
  rw [Table.read_set]
  split
  · exact ⟨h0, h3⟩
  · exact h name'

theorem StatusRange.touch {m : Table Bytes Int} (h : StatusRange m) (name : Bytes) :
    StatusRange (m.touch name 0) := by
  intro name'
  rw [Table.read_touch_self]
  exact h name'

/-- A value of the map that is set is the status of its machine. -/
theorem StatusRange.isStatusOf {m : Table Bytes Int} (h : StatusRange m) {name : Bytes}
    (hset : m.read name 0 ≠ 0) : IsStatusOf m name (m.read name 0) := by
  obtain ⟨h0, h3⟩ := h name
  refine ⟨by omega, ?_⟩
  show m.read name 0 = if m.read name 0 = 0 then 2 else m.read name 0
  rw [if_neg hset]

theorem WritesRight.hand (hs : WritesRight same s) {statements : List Statement}
    (hnew : ∀ q ∈ statements, RightStatus same ⟨q, s.mapMnameStatus, s.machine⟩) :
    WritesRight same (s.hand statements) := by
  intro h hmem
  rcases List.mem_append.mp hmem with hold | hmem
  · exact hs h hold
  · obtain ⟨q, hq, rfl⟩ := List.mem_map.mp hmem
    exact hnew q hq

/-- A registration writes the status that it finds. -/
theorem writesRight_register {name : Bytes} {r : RegisterReplies} (hs : WritesRight same s)
    (hrange : StatusRange s.mapMnameStatus)
    (hfinds : r.Inserts → Plain name ∧ s.mapMnameStatus.read name 0 ≠ 0) :
    WritesRight same (s.dbMachineInsert name r) ∧
      StatusRange (s.dbMachineInsert name r).mapMnameStatus := by
  unfold StatusState.dbMachineInsert
  split
  · dsimp only
    have hselect : WritesRight same (s.hand [.selectMachine name]) :=
      hs.hand fun q hq => by
        obtain rfl := List.mem_singleton.mp hq
        trivial
    split
    · case isTrue.isTrue hinserts =>
      have htouched := hrange.touch name
      refine ⟨WritesRight.hand ?_ fun q hq => ?_, htouched⟩
      · exact hselect
      obtain rfl := List.mem_singleton.mp hq
      obtain ⟨hplain, hset⟩ := hfinds hinserts
      refine ⟨hplain, htouched.isStatusOf ?_⟩
      rw [Table.read_touch_self]
      exact hset
    · exact ⟨hselect, hrange⟩
  · exact ⟨hs, hrange⟩

/-- On the map, the call does what it does for `handle_listen`. -/
theorem dbMachineInsert_tables {tables : Tables} (hmap : tables.mapMnameStatus = s.mapMnameStatus)
    (name : Bytes) (r : RegisterReplies) (throws : Bool) :
    (tables.dbMachineInsert name ⟨decide r.Inserts, throws⟩).tables.mapMnameStatus =
      (s.dbMachineInsert name r).mapMnameStatus := by
  unfold Tables.dbMachineInsert StatusState.dbMachineInsert
  by_cases hinserts : r.Inserts
  · simp [hinserts, hinserts.1, hmap, StatusState.hand]
  · cases r.connected <;> simp [hinserts, hmap, StatusState.hand]

/-- The statements at an entry. -/
theorem rightStatus_visitEntry {r : VisitReplies} {name : Bytes} {m : Table Bytes Int}
    {found after : List Row} (hrange : StatusRange m) (hset : m.read name 0 ≠ 0)
    (hanswer : Answers same found name r.machine) (hafter : found ⊆ after)
    (hfinds : r.FindsRow name) :
    ∀ q ∈ (visitEntry r name (m.read name 0)).1, RightStatus same ⟨q, m, after⟩ := by
  have hstatus := hrange.isStatusOf hset
  unfold visitEntry
  cases hmachine : r.machine with
  | failed | badQuery =>
      intro q hq
      obtain rfl := List.mem_singleton.mp hq
      trivial
  | rows ids =>
      rw [hmachine] at hanswer
      obtain ⟨hplain, hempty⟩ := hfinds ids hmachine
      cases ids with
      | cons id ids =>
          intro q hq
          simp only [List.mem_cons, List.not_mem_nil, or_false] at hq
          rcases hq with rfl | rfl
          · trivial
          · have hnames := hanswer.names_last hplain (List.cons_ne_nil _ _) r.machineId
            exact ⟨name, _, hnames.mono hafter, hstatus, rfl⟩
      | nil =>
          -- the machine is inserted with its status, and there is no `UPDATE`
          have hinsert : ∀ q ∈ [Statement.selectMachine name, .insertMachine name (m.read name 0),
              .selectMachine name], RightStatus same ⟨q, m, after⟩ := by
            intro q hq
            simp only [List.mem_cons, List.not_mem_nil, or_false] at hq
            rcases hq with rfl | rfl | rfl
            · trivial
            · exact ⟨hplain, hstatus⟩
            · trivial
          dsimp only
          cases hreply : r.insert with
          | badQuery => exact fun q hq => hinsert q (List.mem_of_mem_take (i := 2) hq)
          | done | failed =>
              have hnone := (hempty rfl).resolve_left (by rw [hreply]; exact ExecReply.noConfusion)
              dsimp only
              cases hnew : r.newMachine with
              | rows ids' => exact absurd hnew (hnone ids')
              | failed | badQuery => exact hinsert

theorem writesRight_visit {name : Bytes} {r : VisitReplies} {found after : List Row}
    (hs : WritesRight same s) (hrange : StatusRange s.mapMnameStatus) (hafter : found ⊆ after)
    (hanswer : Answers same found name r.machine) (hfinds : r.FindsRow name) :
    WritesRight same (s.visit name r after) ∧
      StatusRange (s.visit name r after).mapMnameStatus := by
  -- the entry behind the assignment, which leaves no 0
  have hentry : ∀ u : StatusState, WritesRight same u → StatusRange u.mapMnameStatus →
      u.mapMnameStatus.read name 0 ≠ 0 →
      WritesRight same (StatusState.hand { u with machine := after }
        (visitEntry r name (u.mapMnameStatus.read name 0)).1) := fun u hu hrange hset =>
    WritesRight.hand (s := { u with machine := after }) hu
      (rightStatus_visitEntry hrange hset hanswer hafter hfinds)
  unfold StatusState.visit
  by_cases hzero : s.mapMnameStatus.read name 0 = 0
  · have hrange' : StatusRange (s.mapMnameStatus.set name 2) :=
      hrange.set name (by decide) (by decide)
    rw [if_pos hzero]
    refine ⟨hentry { s with mapMnameStatus := s.mapMnameStatus.set name 2 } hs hrange' ?_, hrange'⟩
    rw [Table.read_set, if_pos rfl]
    decide
  · rw [if_neg hzero]
    exact ⟨hentry s hs hrange hzero, hrange⟩

end

/-- The invariant. -/
structure StatusKept (same : Bytes → Bytes → Bool) (s : StatusState) : Prop where
  writes : WritesRight same s
  range : StatusRange s.mapMnameStatus

theorem statusKept_step {same : Bytes → Bytes → Bool} {s t : StatusState} {a : StatusAction}
    (hs : StatusKept same s) (hok : FindsStatus s a) (h : statusStep same s a = some t) :
    StatusKept same t := by
  cases a with
  | setStatus name status =>
      cases h
      refine ⟨hs.writes, hs.range.set name ?_ ?_⟩ <;> cases status <;> decide
  | addRows machine =>
      cases h
      exact ⟨hs.writes, hs.range⟩
  | register name r =>
      cases h
      obtain ⟨hwrites, hrange⟩ := writesRight_register hs.writes hs.range hok
      exact ⟨hwrites, hrange⟩
  | beginPass =>
      cases hit : s.it with
      | none =>
          simp only [statusStep, hit] at h
          cases h
          exact ⟨hs.writes, hs.range⟩
      | some name => simp [statusStep, hit] at h
  | visit r found after =>
      cases hit : s.it with
      | none => simp [statusStep, hit] at h
      | some name =>
          simp only [statusStep, hit] at h
          obtain ⟨⟨-, hafter, hanswer⟩, h⟩ := Option.ite_none_right_eq_some.mp h
          cases h
          obtain ⟨hwrites, hrange⟩ :=
            writesRight_visit hs.writes hs.range hafter hanswer (hok name hit)
          exact ⟨hwrites, hrange⟩

/-- In every run in which registrations find a status, and passes find their machines in the table,
every status that is written is the right one. -/
theorem handed_right (same : Bytes → Bytes → Bool) {mapMnameStatus : Table Bytes Int}
    {machine : List Row} {actions : List StatusAction} {s : StatusState}
    (hrange : StatusRange mapMnameStatus)
    (hok : AllSteps (statusStep same) FindsStatus actions (.start mapMnameStatus machine))
    (h : run (statusStep same) actions (.start mapMnameStatus machine) = some s) :
    WritesRight same s :=
  (run_invariant_of_allSteps (fun _ _ _ hs hok hstep => statusKept_step hs hok hstep)
    ⟨fun _ hmem => absurd hmem List.not_mem_nil, hrange⟩ hok h).writes

/-- A map in which `pc` has this status, and no other machine has one. -/
def pcMap (status : Int) : Table Bytes Int := (∅ : Table Bytes Int).set [ch 'p', ch 'c'] status

/-- A pass over the map, on a table in which `pc` has the id 5. -/
def passOverPc : List StatusAction :=
  [.beginPass, .visit ⟨.rows [5], .done, .failed, .done, 0⟩ [⟨5, [ch 'p', ch 'c']⟩]
    [⟨5, [ch 'p', ch 'c']⟩]]

theorem handed_right_known :
    ∃ s, run (statusStep fun a b => a = b) passOverPc (.start (pcMap 0) []) = some s ∧
      s.handed.map Handed.statement = [.selectMachine [ch 'p', ch 'c'],
        .updateMachine (printDec 2) true 5] ∧
      WritesRight (fun a b => a = b) s := by
  have hempty : StatusRange ∅ := fun name => by simp [Table.read]
  have hrange : StatusRange (pcMap 0) := hempty.set _ (by decide) (by decide)
  have hok : AllSteps (statusStep fun a b => a = b) FindsStatus passOverPc
      (.start (pcMap 0) []) := by
    refine ⟨trivial, fun t ht => ⟨fun name hname ids hids => ?_, fun _ _ => trivial⟩⟩
    cases ht
    cases hids
    obtain rfl : [ch 'p', ch 'c'] = name := Option.some.inj hname
    exact ⟨by decide, fun h => by cases h⟩
  exact ⟨_, rfl, by decide, handed_right _ hrange hok rfl⟩

/-- A machine that calls home for the first time is inserted with the status 0. And one that
`update_mstatus` inserts itself, while it is logged in, gets its name for a status. -/
theorem handed_right_fails :
    (∃ s, run (statusStep fun a b => a = b) [.register [ch 'p', ch 'c'] ⟨true, .rows []⟩]
        (.start ∅ []) = some s ∧
      s.handed.map Handed.statement = [.selectMachine [ch 'p', ch 'c'],
        .insertMachine [ch 'p', ch 'c'] 0] ∧
      ¬ WritesRight (fun a b => a = b) s) ∧
    ∃ s, run (statusStep fun a b => a = b)
        [.beginPass, .visit ⟨.rows [], .done, .rows [5], .done, 0⟩ [] [⟨5, [ch 'p', ch 'c']⟩]]
        (.start (pcMap 1) []) = some s ∧
      s.handed.map Handed.statement = [.selectMachine [ch 'p', ch 'c'],
        .insertMachine [ch 'p', ch 'c'] 1, .selectMachine [ch 'p', ch 'c'],
        .updateMachine [ch 'p', ch 'c'] true 5] ∧
      ¬ WritesRight (fun a b => a = b) s := by
  constructor
  · refine ⟨_, rfl, by decide, fun h => ?_⟩
    obtain ⟨-, hstatus, -⟩ := h _ (List.mem_cons_of_mem _ List.mem_cons_self)
    exact absurd hstatus (by decide)
  · refine ⟨_, rfl, by decide, fun h => ?_⟩
    -- the name `pc` is not the text of a number from 1 to 3
    obtain ⟨_, n, -, ⟨rfl | rfl | rfl, -⟩, htext⟩ :=
      h _ (List.mem_cons_of_mem _ (List.mem_cons_of_mem _ (List.mem_cons_of_mem _
        List.mem_cons_self)))
    all_goals exact absurd htext (by decide)

end Monitoring.Server
