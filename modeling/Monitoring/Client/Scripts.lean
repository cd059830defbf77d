import Mathlib.Data.List.Sort
import Monitoring.Client.Config

/-!
# `Monitoring.Client.Scripts`: the scripts that run at their times

`execute_script` looks for every script of SCRIPTS2 into the slot of the weekday, and runs the
script if the hour and the minute in it are those of the clock. A weekday is an index of type
`int`, with Sunday at 0.

`system` waits until the script has ended. So `executeScript` is a call whose `struct tm` stays as
it is; what other threads do to it in the meantime is the matter of `Monitoring.Client.Launches`.
-/

set_option autoImplicit false

namespace Monitoring.Client

open Monitoring.Lib

/-- The fields of a `struct tm` that `execute_script` reads. -/
structure LocalTime where
  wday : Nat
  hour : Nat
  min : Nat
  wday_lt : wday < 7
  hour_lt : hour < 24
  min_lt : min < 60
deriving DecidableEq, Repr

/-- `localtime`, where the zone is ahead by `zone m` minutes in the minute `m`. The epoch began on
a Thursday. -/
def localTime (zone : Int → Int) (clock : Int) : LocalTime :=
  let minutes := clock / 60 + zone (clock / 60)
  { wday := ((minutes / 1440 + 4) % 7).toNat
    hour := (minutes / 60 % 24).toNat
    min := (minutes % 60).toNat
    wday_lt := by omega
    hour_lt := by omega
    min_lt := by omega }

/-- All times of a minute have one local time. -/
theorem localTime_congr {zone : Int → Int} {c d : Int} (h : c / 60 = d / 60) :
    localTime zone c = localTime zone d := by
  unfold localTime
  simp only [h]

/-- `parse_script2`, for a delimiter of one character. -/
def parseScript2 (script : Bytes) (delim : Byte) : List Bytes := script.splitOn delim

/-- The test for one script; `none` where an `at` raises. -/
def scriptDue (weekdays : List Bytes) (now : LocalTime) : Option Bool :=
  weekdays[now.wday]?.bind fun s =>
    let v := parseScript2 s (ch ':')
    v[0]?.bind fun hour => v[1]?.map fun min =>
      decide (atoi hour = now.hour ∧ atoi min = now.min)

/-- The keys of SCRIPTS2, in the order of the map. -/
def scriptCommands (scripts2 : Table Bytes (List Bytes)) : List Bytes :=
  scripts2.keys.insertionSort (· ≤ ·)

/-- The test for the script with this command. -/
def commandDue (scripts2 : Table Bytes (List Bytes)) (now : LocalTime) (cmd : Bytes) :
    Option Bool :=
  (scripts2.lookup cmd).bind fun weekdays => scriptDue weekdays now

/-- The loop of `execute_script`: the commands that are run. -/
def runScripts (scripts2 : Table Bytes (List Bytes)) (now : LocalTime) :
    List Bytes → Option (List Bytes)
  | [] => some []
  | cmd :: rest =>
      (commandDue scripts2 now cmd).bind fun due =>
        (runScripts scripts2 now rest).map fun launched =>
          if due then cmd :: launched else launched

/-- `execute_script`. Nothing catches what an `at` raises, so `none` is the end of the process. -/
def executeScript (scripts2 : Table Bytes (List Bytes)) (now : LocalTime) :
    Option (List Bytes) := runScripts scripts2 now (scriptCommands scripts2)

section
variable {scripts2 : Table Bytes (List Bytes)} {now : LocalTime}

/-- Every script of the map is looked at, and only once. -/
@[simp] theorem mem_scriptCommands {cmd : Bytes} :
    cmd ∈ scriptCommands scripts2 ↔ cmd ∈ scripts2 := by
  unfold scriptCommands
  rw [List.mem_insertionSort]
  exact AList.mem_keys

theorem nodup_scriptCommands : (scriptCommands scripts2).Nodup :=
  (List.perm_insertionSort _ _).nodup_iff.mpr (AList.keys_nodup scripts2)

/-- If no test raises, the scripts that are due are run. -/
theorem runScripts_mem {cmds : List Bytes}
    (h : ∀ cmd ∈ cmds, ∃ due, commandDue scripts2 now cmd = some due) :
    ∃ launched, runScripts scripts2 now cmds = some launched ∧
      ∀ cmd, cmd ∈ launched ↔ cmd ∈ cmds ∧ commandDue scripts2 now cmd = some true := by
  induction cmds with
  | nil => exact ⟨[], rfl, by simp⟩
  | cons cmd rest ih =>
      obtain ⟨launched, hrun, hmem⟩ := ih fun c hc => h c (List.mem_cons_of_mem _ hc)
      obtain ⟨due, hdue⟩ := h cmd List.mem_cons_self
      refine ⟨if due then cmd :: launched else launched, ?_, fun c => ?_⟩
      · unfold runScripts
        rw [hdue, hrun]
        rfl
      · cases due with
        | true =>
            simp only [if_true, List.mem_cons, hmem]
            constructor
            · rintro (rfl | ⟨hc, hd⟩)
              · exact ⟨Or.inl rfl, hdue⟩
              · exact ⟨Or.inr hc, hd⟩
            · rintro ⟨rfl | hc, hd⟩
              · exact Or.inl rfl
              · exact Or.inr ⟨hc, hd⟩
        | false =>
            simp only [Bool.false_eq_true, if_false, List.mem_cons, hmem]
            constructor
            · exact fun ⟨hc, hd⟩ => ⟨Or.inr hc, hd⟩
            · rintro ⟨rfl | hc, hd⟩
              · rw [hdue] at hd
                cases hd
              · exact ⟨hc, hd⟩

end

end Monitoring.Client
