import Monitoring.Client.ProgramList

/-!
# `Monitoring.Proofs.ProgramLock`: who holds `pf_mutex`

`linux_set_program_list` unlocks `pf_mutex` only where it has opened the masterlist file. After a
call that could not, the mutex stays locked, and every later call waits for it. `released_iff` is
the statement for every sequence of calls.
-/

set_option autoImplicit false

namespace Monitoring.Client

open Monitoring.Lib

/-- A call, or a change of the file by someone else. -/
inductive LockEvent
  | edit (file : Option Bytes)
  | setProgramList (canRead : Bool)
  | writeProgramFile (list : Bytes) (canWrite canRead : Bool)
deriving DecidableEq, Repr

/-- The state behind an event; `none` for a call that waits for ever. -/
def lockStep (s : ProgramState) : LockEvent → Option ProgramState
  | .edit file => some { s with file := file }
  | .setProgramList canRead => linuxSetProgramList canRead s
  | .writeProgramFile list canWrite canRead => writeProgramFile list canWrite canRead s

/-- The call returns, and has not left the mutex locked. -/
def Releases (s : ProgramState) (e : LockEvent) : Prop :=
  ∃ t, lockStep s e = some t ∧ t.pfMutex = false

/-- The call can open the masterlist file for reading. -/
def Opens (s : ProgramState) : LockEvent → Prop
  | .edit _ => True
  | .setProgramList canRead => s.file.isSome = true ∧ canRead = true
  | .writeProgramFile _ _ canRead => s.file.isSome = true ∧ canRead = true

instance (s : ProgramState) : (e : LockEvent) → Decidable (Opens s e)
  | .edit _ => isTrue trivial
  | .setProgramList _ => inferInstanceAs (Decidable (_ ∧ _))
  | .writeProgramFile _ _ _ => inferInstanceAs (Decidable (_ ∧ _))

section
variable {s : ProgramState}

/-- A call of `set_program_list` that finds the mutex free. -/
theorem linuxSetProgramList_releases_iff (hfree : s.pfMutex = false) (canRead : Bool) :
    (∃ t, linuxSetProgramList canRead s = some t ∧ t.pfMutex = false) ↔
      s.file.isSome = true ∧ canRead = true := by
  unfold linuxSetProgramList
  rw [hfree, if_neg Bool.false_ne_true]
  cases s.file with
  | none => simp
  | some text =>
      cases canRead with
      | false => simp
      | true => simp

/-- Every call, from a state in which the mutex is free. -/
theorem releases_iff (hfree : s.pfMutex = false) (e : LockEvent) : Releases s e ↔ Opens s e := by
  cases e with
  | edit file => exact iff_of_true ⟨_, rfl, hfree⟩ trivial
  | setProgramList canRead => exact linuxSetProgramList_releases_iff hfree canRead
  | writeProgramFile list canWrite canRead =>
      show (∃ t, writeProgramFile list canWrite canRead s = some t ∧ t.pfMutex = false) ↔
        s.file.isSome = true ∧ canRead = true
      have hset := linuxSetProgramList_releases_iff hfree canRead
      unfold writeProgramFile
      cases hfile : s.file with
      | none =>
          rw [hfile] at hset
          exact hset
      | some old =>
          rw [hfile] at hset
          cases canWrite with
          | false => exact hset
          | true =>
              dsimp only
              rw [if_pos rfl, hfree, if_neg Bool.false_ne_true]
              -- the file that was just written is there
              exact linuxSetProgramList_releases_iff rfl canRead

/-- For every sequence of calls, with any changes of the file in between: every call returns and
leaves the mutex free, exactly if every call can open the file. -/
theorem released_iff (hfree : s.pfMutex = false) (events : List LockEvent) :
    AllSteps lockStep Releases events s ↔ AllSteps lockStep Opens events s :=
  allSteps_stays_iff (fun _ e hfree => releases_iff hfree e) hfree

end

/-- The masterlist file is there, and is overwritten. -/
theorem released_iff_written :
    AllSteps lockStep Releases [.writeProgramFile [ch 'a'] true true, .setProgramList true]
      (.start (some [])) :=
  (released_iff rfl _).mpr (by decide)

/-- The file is missing when `gather_data` sets the list. It is created then, but the next call home
waits for the mutex. -/
theorem released_fails :
    ∃ s, run lockStep [.setProgramList true, .edit (some [])] (.start none) = some s ∧
      s.pfMutex = true ∧ lockStep s (.writeProgramFile [ch 'a'] true true) = none ∧
      ¬ AllSteps lockStep Releases
        [.setProgramList true, .edit (some []), .writeProgramFile [ch 'a'] true true]
        (.start none) := by
  refine ⟨_, rfl, rfl, rfl, fun h => ?_⟩
  obtain ⟨t, ht, hfree⟩ := h.1
  cases ht
  cases hfree

end Monitoring.Client
