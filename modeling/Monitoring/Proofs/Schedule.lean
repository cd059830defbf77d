import Monitoring.Proofs.Scripts

/-!
# `Monitoring.Proofs.Schedule`: the documented times of a script, and the times it runs

`default.cfg` describes the times of a script as a list of `Day:Hour:Minute` items, where the days
are numbered from Monday, and 0 means every day. `DueAt` is that meaning: the last item counts that
names the day.

The table that `main` fills has seven slots, from 0 for Sunday. So the items from 1 to 6 reach their
days, but no item names Sunday alone: 7 is no slot, and 0 is every day. And a slot that no item has
filled holds `0:00`, which is a time. `schedule_iff` says which times are kept as documented.
`independent_iff` is about the scripts of one configuration: SCRIPTS2 is copied behind the last of
them, so one that raises takes the others with it.
-/

set_option autoImplicit false

namespace Monitoring.Client

open Monitoring.Lib

/-! ### The documented times -/

/-- The text is a decimal number of at most `max`; zeros may stand in front. -/
def IsNumber (text : Bytes) (max : Nat) : Prop :=
  text ≠ [] ∧ (∀ c ∈ text, IsDigit 10 c) ∧ fieldValue 10 text ≤ max

instance (text : Bytes) (max : Nat) : Decidable (IsNumber text max) :=
  inferInstanceAs (Decidable (_ ∧ _ ∧ _))

/-- One item `Day:Hour:Minute`. -/
structure TimeItem where
  day : Bytes
  hour : Bytes
  minute : Bytes
  day_number : IsNumber day 7
  hour_number : IsNumber hour 23
  minute_number : IsNumber minute 59

namespace TimeItem

/-- The item in the text of the times. -/
def text (i : TimeItem) : Bytes := [ch ':'].intercalate [i.day, i.hour, i.minute]

def dayValue (i : TimeItem) : Nat := fieldValue 10 i.day
def hourValue (i : TimeItem) : Nat := fieldValue 10 i.hour
def minuteValue (i : TimeItem) : Nat := fieldValue 10 i.minute

/-- What `main` puts into the slots of the item. -/
def slot (i : TimeItem) : Bytes := i.hour ++ [ch ':'] ++ i.minute

end TimeItem

/-- The text of the times. -/
def timeText (items : List TimeItem) : Bytes := [ch ','].intercalate (items.map TimeItem.text)

/-- "7 day of the week starting with Monday, and 0 means Every day": the item names the day. -/
def TimeItem.names (i : TimeItem) (now : LocalTime) : Bool :=
  i.dayValue = 0 || i.dayValue = if now.wday = 0 then 7 else now.wday

/-- The last item that names the day has this hour and minute. -/
def DueAt (items : List TimeItem) (now : LocalTime) : Prop :=
  ∃ i ∈ (items.filter fun i => i.names now).getLast?,
    i.hourValue = now.hour ∧ i.minuteValue = now.min

instance (items : List TimeItem) (now : LocalTime) : Decidable (DueAt items now) :=
  inferInstanceAs (Decidable (∃ i ∈ _, _))

/-! ### The slots -/

section
variable {i : TimeItem} {items : List TimeItem} {text : Bytes} {max : Nat}

theorem IsNumber.not_mem {sep : Byte} (h : IsNumber text max) (hsep : digitVal sep = 16) :
    sep ∉ text := by
  intro hmem
  have hdigit : digitVal sep < 10 := h.2.1 sep hmem
  omega

theorem IsNumber.atoi (h : IsNumber text max) (hmax : max ≤ 59) :
    Lib.atoi text = fieldValue 10 text :=
  atoi_of_digits h.2.1 (by have hle := h.2.2; omega)

/-- The fields of an item. -/
theorem TimeItem.split_text (i : TimeItem) :
    splitCompress (ch ':') i.text = [i.day, i.hour, i.minute] := by
  refine splitCompress_intercalate (by simp) fun t ht => ?_
  simp only [List.mem_cons, List.not_mem_nil, or_false] at ht
  rcases ht with rfl | rfl | rfl
  · exact ⟨i.day_number.not_mem (by decide), i.day_number.1⟩
  · exact ⟨i.hour_number.not_mem (by decide), i.hour_number.1⟩
  · exact ⟨i.minute_number.not_mem (by decide), i.minute_number.1⟩

/-- The items of a text. -/
theorem split_timeText (hne : items ≠ []) :
    splitCompress (ch ',') (timeText items) = items.map TimeItem.text := by
  refine splitCompress_intercalate (by simpa using hne) fun t ht => ?_
  obtain ⟨i, -, rfl⟩ := List.mem_map.mp ht
  constructor
  · intro hmem
    unfold TimeItem.text at hmem
    rcases mem_intercalate hmem with h | ⟨t, ht, hc⟩
    · exact absurd h (by decide)
    · simp only [List.mem_cons, List.not_mem_nil, or_false] at ht
      rcases ht with rfl | rfl | rfl
      · exact i.day_number.not_mem (by decide) hc
      · exact i.hour_number.not_mem (by decide) hc
      · exact i.minute_number.not_mem (by decide) hc
  · unfold TimeItem.text
    simp

theorem timeText_ne_nil (hne : items ≠ []) : timeText items ≠ [] := by
  intro h
  have hsplit := split_timeText hne
  obtain ⟨i, rest, rfl⟩ := List.exists_cons_of_ne_nil hne
  rw [h, List.map_cons] at hsplit
  -- an empty text is split into one empty item, and no item is empty
  have hitem : i.text = [] := (List.cons.inj hsplit).1.symm
  have hfields : (splitCompress (ch ':') i.text).length = 3 := by rw [i.split_text]; rfl
  rw [hitem] at hfields
  exact absurd hfields (by decide)

/-- Every item is accepted but for those of day 7. -/
theorem itemAccepted_text : ItemAccepted i.text ↔ i.dayValue ≠ 7 := by
  have hday : i.dayValue ≤ 7 := i.day_number.2.2
  unfold ItemAccepted
  rw [i.split_text, List.headD_cons, i.day_number.atoi (by decide)]
  change 3 ≤ 3 ∧ 0 ≤ (i.dayValue : Int) ∧ (i.dayValue : Int) < 7 ↔ i.dayValue ≠ 7
  omega

/-- What an item of day 0 to 6 does to the slots. -/
theorem passOr_setWeekday {weekdays : List Bytes} (hlen : weekdays.length = 7)
    (h : i.dayValue ≠ 7) : passOr setWeekday weekdays i.text
      = if i.dayValue = 0 then weekdays.map fun _ => i.slot
        else weekdays.set i.dayValue i.slot := by
  have hday : i.dayValue ≤ 7 := i.day_number.2.2
  have hnumber : atoi i.day = (i.dayValue : Int) := i.day_number.atoi (by decide)
  unfold passOr setWeekday
  simp only [i.split_text, List.headD_cons, hnumber, List.getElem?_cons_succ,
    List.getElem?_cons_zero, hlen]
  by_cases h0 : i.dayValue = 0
  · simp only [h0, Nat.cast_zero, if_true]
    rfl
  · rw [if_neg (by omega), if_neg h0, if_pos (by omega), Int.toNat_natCast]
    rfl

/-- The slot of a weekday has the time of the last item that names it, or is as it was. -/
theorem foldl_slots (items : List TimeItem) (h : ∀ i ∈ items, i.dayValue ≠ 7) :
    ((items.map TimeItem.text).foldl (passOr setWeekday)
        (List.replicate 7 (str "0:00"))).length = 7 ∧
      ∀ w < 7, ((items.map TimeItem.text).foldl (passOr setWeekday)
          (List.replicate 7 (str "0:00")))[w]?
        = some ((((items.filter fun i => i.dayValue = 0 ∨ i.dayValue = w).getLast?).map
            TimeItem.slot).getD (str "0:00")) := by
  induction items using List.reverseRecOn with
  | nil =>
      refine ⟨rfl, fun w hw => ?_⟩
      rw [List.map_nil, List.foldl_nil, List.getElem?_replicate, if_pos hw]
      rfl
  | append_singleton items i ih =>
      obtain ⟨hlen, hslots⟩ := ih fun j hj => h j (List.mem_append_left _ hj)
      have hi : i.dayValue ≠ 7 := h i (by simp)
      have hday : i.dayValue ≤ 7 := i.day_number.2.2
      rw [List.map_append, List.foldl_append, List.map_singleton, List.foldl_cons, List.foldl_nil,
        passOr_setWeekday hlen hi]
      refine ⟨?_, fun w hw => ?_⟩
      · split
        · rw [List.length_map, hlen]
        · rw [List.length_set, hlen]
      rw [List.filter_append]
      by_cases h0 : i.dayValue = 0
      · rw [if_pos h0, List.getElem?_map, List.getElem?_eq_getElem (by omega)]
        simp [h0]
      · rw [if_neg h0]
        by_cases hiw : i.dayValue = w
        · rw [hiw, List.getElem?_set_self (by omega)]
          simp [hiw]
        · rw [List.getElem?_set_ne hiw, hslots w hw]
          simp [h0, hiw]

end

/-! ### The time of one script -/

section
variable {items : List TimeItem} {now : LocalTime} {weekdays : List Bytes}

/-- The test reads back the hour and the minute of the slot. -/
theorem scriptDue_of_slot {hour minute : Bytes}
    (h : weekdays[now.wday]? = some (hour ++ [ch ':'] ++ minute)) (hhour : ch ':' ∉ hour)
    (hminute : ch ':' ∉ minute) :
    scriptDue weekdays now
      = some (decide (atoi hour = now.hour ∧ atoi minute = now.min)) := by
  have hsplit : parseScript2 (hour ++ [ch ':'] ++ minute) (ch ':') = [hour, minute] := by
    have hfields : ([ch ':'].intercalate [hour, minute]).splitOn (ch ':') = [hour, minute] :=
      List.splitOn_intercalate (ch ':') (by simpa using ⟨hhour, hminute⟩) (by simp)
    simpa [parseScript2] using hfields
  unfold scriptDue
  rw [h, Option.bind_some, hsplit]
  rfl

/-- On a day that an item has filled, the script is due at the time of the last such item. -/
theorem scriptDue_filled {i : TimeItem} (h7 : ∀ j ∈ items, j.dayValue ≠ 7) (hne : items ≠ [])
    (h : (items.filter fun j => j.dayValue = 0 ∨ j.dayValue = now.wday).getLast? = some i) :
    scriptDue (weekdaysOf (timeText items)) now
      = some (decide (i.hourValue = now.hour ∧ i.minuteValue = now.min)) := by
  have hslot := (foldl_slots items h7).2 now.wday now.wday_lt
  rw [h, ← split_timeText hne] at hslot
  have hdue : scriptDue (weekdaysOf (timeText items)) now = _ := scriptDue_of_slot hslot
    (i.hour_number.not_mem (by decide)) (i.minute_number.not_mem (by decide))
  rw [i.hour_number.atoi (by decide), i.minute_number.atoi (by decide)] at hdue
  unfold TimeItem.hourValue TimeItem.minuteValue
  simpa only [Nat.cast_inj] using hdue

/-- On the other days it is due at midnight. -/
theorem scriptDue_unfilled (h7 : ∀ j ∈ items, j.dayValue ≠ 7) (hne : items ≠ [])
    (h : (items.filter fun j => j.dayValue = 0 ∨ j.dayValue = now.wday).getLast? = none) :
    scriptDue (weekdaysOf (timeText items)) now
      = some (decide (0 = now.hour ∧ 0 = now.min)) := by
  have hslot := (foldl_slots items h7).2 now.wday now.wday_lt
  rw [h, ← split_timeText hne] at hslot
  have hdue : scriptDue (weekdaysOf (timeText items)) now = _ :=
    scriptDue_of_slot (hslot.trans (show _ = some (str "0" ++ [ch ':'] ++ str "00") from rfl))
      (by decide) (by decide)
  rw [show atoi (str "0") = ((0 : Nat) : Int) by decide,
    show atoi (str "00") = ((0 : Nat) : Int) by decide] at hdue
  simpa only [Nat.cast_inj] using hdue

/-- Where no item has day 7, an item of day 0 is what the slot of Sunday needs. -/
theorem scriptDue_iff (h7 : ∀ i ∈ items, i.dayValue ≠ 7) (hne : items ≠ []) :
    (∀ now, scriptDue (weekdaysOf (timeText items)) now = some (decide (DueAt items now))) ↔
      ∃ i ∈ items, i.dayValue = 0 := by
  constructor
  · intro hkept
    by_contra hno
    have hday : ∀ i ∈ items, i.dayValue ≠ 0 := fun i hi h0 => hno ⟨i, hi, h0⟩
    let midnight : LocalTime := ⟨0, 0, 0, by decide, by decide, by decide⟩
    -- no item fills the slot of Sunday, and none names the day
    have hfilled : (items.filter fun j => j.dayValue = 0 ∨ j.dayValue = midnight.wday) = [] :=
      List.filter_eq_nil_iff.mpr fun i hi => by simpa [midnight] using hday i hi
    have hnamed : (items.filter fun i => i.names midnight) = [] :=
      List.filter_eq_nil_iff.mpr fun i hi => by
        simpa [TimeItem.names, midnight] using ⟨hday i hi, h7 i hi⟩
    have hdue : ¬ DueAt items midnight := by
      unfold DueAt
      rw [hnamed]
      simp
    have hmidnight := hkept midnight
    rw [scriptDue_unfilled h7 hne (by rw [hfilled]; rfl), decide_eq_false hdue] at hmidnight
    exact absurd hmidnight (by decide)
  · rintro ⟨first, hfirst, h0⟩ now
    have hsame : (items.filter fun i => i.names now)
        = items.filter fun i => i.dayValue = 0 ∨ i.dayValue = now.wday := by
      refine List.filter_congr fun i hi => ?_
      have hi7 := h7 i hi
      unfold TimeItem.names
      rw [Bool.eq_iff_iff]
      simp only [Bool.or_eq_true, decide_eq_true_eq]
      split <;> omega
    cases hlast : (items.filter fun i => i.dayValue = 0 ∨ i.dayValue = now.wday).getLast? with
    | none =>
        have hnil := List.getLast?_eq_none_iff.mp hlast
        exact absurd (by simp [h0]) (List.filter_eq_nil_iff.mp hnil first hfirst)
    | some i =>
        have hdue : DueAt items now ↔ i.hourValue = now.hour ∧ i.minuteValue = now.min := by
          unfold DueAt
          rw [hsame, hlast]
          exact ⟨fun ⟨_, hj, htime⟩ => Option.some.inj hj ▸ htime, fun htime => ⟨i, rfl, htime⟩⟩
        rw [scriptDue_filled h7 hne hlast, decide_eq_decide.mpr hdue]

end

/-! ### The times of a configuration -/

/-- The configuration is accepted, and whenever `execute_script` runs, it runs the command of the
script exactly at the documented times. -/
def RunsAsDocumented (readXml : Bytes → Option PTree) (file : Option Bytes) (v : Bytes × PTree)
    (items : List TimeItem) : Prop :=
  ConfigAccepted readXml file ∧ ∀ now, ∃ launched,
    executeScript (configure readXml file).scripts2 now = some launched ∧
      (commandOf v ∈ launched ↔ DueAt items now)

section
variable {cs : List (Bytes × PTree)} {items : List TimeItem} {v : Bytes × PTree}

/-- A script with documented times is accepted if it has a command, and no item of day 7. -/
theorem accepts_iff (hscript : IsScript v) (htimes : timesOf v = timeText items)
    (hne : items ≠ []) :
    Accepts v ↔ v.2.Has (str "command") ∧ ∀ i ∈ items, i.dayValue ≠ 7 := by
  have hitems : (∀ item ∈ splitCompress (ch ',') (timesOf v), ItemAccepted item) ↔
      ∀ i ∈ items, i.dayValue ≠ 7 := by
    rw [htimes, split_timeText hne, List.forall_mem_map]
    exact forall₂_congr fun i _ => itemAccepted_text
  unfold Accepts
  rw [hitems]
  constructor
  · intro h
    obtain ⟨hcommand, hempty | hdays⟩ := h hscript
    · exact absurd (htimes ▸ hempty.1) (timeText_ne_nil hne)
    · exact ⟨hcommand, hdays⟩
  · exact fun ⟨hcommand, hdays⟩ _ => ⟨hcommand, Or.inr hdays⟩

/-- No `at` raises on an accepted configuration, and the commands that are due are run. -/
theorem executeScript_installed (h : ∀ v ∈ cs, Accepts v) (now : LocalTime) :
    ∃ launched, executeScript (installed cs) now = some launched ∧
      ∀ cmd, cmd ∈ launched ↔ commandDue (installed cs) now cmd = some true := by
  have hdue : ∀ cmd ∈ scriptCommands (installed cs),
      ∃ due, commandDue (installed cs) now cmd = some due := by
    intro cmd hcmd
    obtain ⟨weekdays, hlookup⟩ := Option.isSome_iff_exists.mp
      (AList.lookup_isSome.mpr (mem_scriptCommands.mp hcmd))
    unfold commandDue
    rw [hlookup, Option.bind_some]
    exact scriptDue_isSome (slots_installed h hlookup) now
  obtain ⟨launched, hrun, hmem⟩ := runScripts_mem hdue
  refine ⟨launched, hrun, fun cmd => (hmem cmd).trans (and_iff_right_of_imp fun htrue => ?_)⟩
  obtain ⟨weekdays, hlookup, -⟩ := Option.bind_eq_some_iff.mp htrue
  exact mem_scriptCommands.mpr (AList.lookup_isSome.mp (by rw [hlookup]; rfl))

end

/-- The times of a script are kept exactly if the other scripts are accepted, the script has a
command, no item has day 7, and some item has day 0. If a script before it has the same command,
the two have the same times. -/
theorem schedule_iff {readXml : Bytes → Option PTree} {file : Option Bytes}
    {pre post : List (Bytes × PTree)} {v : Bytes × PTree} {items : List TimeItem}
    (hfile : Scripted readXml file (pre ++ v :: post)) (hscript : IsScript v)
    (htimes : timesOf v = timeText items) (hne : items ≠ [])
    (hcommands : ∀ u ∈ pre, IsScript u → commandOf u = commandOf v → timesOf u = timesOf v) :
    RunsAsDocumented readXml file v items ↔
      (∀ u ∈ pre ++ post, Accepts u) ∧ v.2.Has (str "command") ∧
        (∀ i ∈ items, i.dayValue ≠ 7) ∧ ∃ i ∈ items, i.dayValue = 0 := by
  obtain ⟨hscripts2, haccepted⟩ := configure_scripts2 hfile
  have hall : (∀ u ∈ pre ++ v :: post, Accepts u) ↔
      (∀ u ∈ pre ++ post, Accepts u) ∧ v.2.Has (str "command") ∧
        ∀ i ∈ items, i.dayValue ≠ 7 := by
    rw [← accepts_iff hscript htimes hne, List.forall_mem_append, List.forall_mem_cons,
      List.forall_mem_append]
    tauto
  unfold RunsAsDocumented
  rw [haccepted, hscripts2, ← and_assoc, ← and_assoc, and_assoc (b := v.2.Has _), ← hall]
  refine and_congr_right fun haccepts => ?_
  have h7 := (hall.mp haccepts).2.2
  rw [if_pos haccepts, ← scriptDue_iff h7 hne]
  refine forall_congr' fun now => ?_
  -- the entry of the command is that of this script
  have hempty : ¬ (timesOf v = [] ∧ commandOf v = []) := fun hh =>
    timeText_ne_nil hne (htimes ▸ hh.1)
  have hentry : commandDue (installed (pre ++ v :: post)) now (commandOf v)
      = scriptDue (weekdaysOf (timeText items)) now := by
    unfold commandDue
    rw [lookup_installed hcommands hscript hempty, htimes, Option.bind_some]
  obtain ⟨launched, hrun, hmem⟩ := executeScript_installed haccepts now
  obtain ⟨due, hdue⟩ := scriptDue_isSome
    (slots_installed haccepts (lookup_installed hcommands hscript hempty)) now
  rw [htimes] at hdue
  have hlaunched : commandOf v ∈ launched ↔ due = true := by
    rw [hmem, hentry, hdue, Option.some.injEq]
  rw [hrun, hdue]
  constructor
  · rintro ⟨_, hsame, hkept⟩
    rw [Option.some.injEq, Bool.eq_iff_iff, decide_eq_true_iff, ← hkept, ← Option.some.inj hsame,
      hlaunched]
  · intro hkept
    refine ⟨launched, rfl, ?_⟩
    rw [hlaunched, Option.some.inj hkept, decide_eq_true_iff]

/-- A configuration with these children of "scripts". -/
def configOf (cs : List (Bytes × PTree)) : PTree :=
  .node [] [
    (str "path", .node [] [(str "data", .node [] []), (str "log", .node [] []),
      (str "config", .node [] [])]),
    (str "network", .node [] [(str "server", .node [] [])]),
    (str "scripts", .node [] cs)]

theorem scripted_configOf {readXml : Bytes → Option PTree} {file : Bytes}
    {cs : List (Bytes × PTree)} (h : readXml file = some (configOf cs)) :
    Scripted readXml (some file) cs := by
  refine ⟨configOf cs, h, ?_, .node [] cs, ?_, rfl⟩
  · intro path hpath
    simp only [requiredPaths, List.mem_cons, List.not_mem_nil, or_false] at hpath
    rcases hpath with rfl | rfl | rfl | rfl <;> rfl
  · rfl

/-- A script with a command and a time. -/
def timedScript (command time : String) : Bytes × PTree :=
  (str "script", .node [] [(str "command", .node (str command) []),
    (str "time", .node (str time) [])])

/-- "Every day, 2:00 AM". -/
def everyDayAtTwo : TimeItem :=
  ⟨str "0", str "2", str "00", by decide +kernel, by decide +kernel, by decide +kernel⟩

/-- "Wed @ 3:00 AM". -/
def wednesdayAtThree : TimeItem :=
  ⟨str "3", str "3", str "00", by decide +kernel, by decide +kernel, by decide +kernel⟩

/-- "Monday, 2:30 AM". -/
def mondayAtHalfPastTwo : TimeItem :=
  ⟨str "1", str "2", str "30", by decide +kernel, by decide +kernel, by decide +kernel⟩

theorem schedule_iff_wednesday :
    RunsAsDocumented (fun _ => some (configOf [timedScript "test.pl" "0:2:00,3:3:00"])) (some [])
      (timedScript "test.pl" "0:2:00,3:3:00") [everyDayAtTwo, wednesdayAtThree] :=
  (@schedule_iff _ _ [] [] _ _ (scripted_configOf rfl) rfl (by decide) (by simp) (by simp)).mpr
    ⟨by simp, by decide, by decide, by decide⟩

/-- The first example in `default.cfg` runs on Sunday at midnight. -/
theorem schedule_fails :
    timesOf (timedScript "test.pl" "1:2:30") = timeText [mondayAtHalfPastTwo] ∧
      ¬ RunsAsDocumented (fun _ => some (configOf [timedScript "test.pl" "1:2:30"])) (some [])
        (timedScript "test.pl" "1:2:30") [mondayAtHalfPastTwo] := by
  refine ⟨by decide, fun ⟨_, hruns⟩ => ?_⟩
  obtain ⟨launched, hrun, hmem⟩ := hruns ⟨0, 0, 0, by decide, by decide, by decide⟩
  have hmidnight : executeScript (configure (fun _ => some (configOf
      [timedScript "test.pl" "1:2:30"])) (some [])).scripts2
      ⟨0, 0, 0, by decide, by decide, by decide⟩ = some [str "test.pl"] := by decide +kernel
  rw [hmidnight, Option.some.injEq] at hrun
  subst hrun
  exact absurd (hmem.mp (by decide)) (by decide)

/-! ### One script and the others -/

/-- The times of the script are as `default.cfg` describes them. -/
def WellFormedTime (v : Bytes × PTree) : Prop := ∃ items, items ≠ [] ∧ timesOf v = timeText items

/-- The entry of every script with well-formed times is the one that it has if no other script is
there. -/
def Independent (readXml : Bytes → Option PTree) (file : Option Bytes)
    (alone : Bytes × PTree → Option Bytes) (cs : List (Bytes × PTree)) : Prop :=
  ∀ v ∈ cs, IsScript v → WellFormedTime v →
    (configure readXml file).scripts2.lookup (commandOf v)
      = (configure readXml (alone v)).scripts2.lookup (commandOf v)

section
variable {readXml : Bytes → Option PTree} {file : Option Bytes}
  {alone : Bytes × PTree → Option Bytes} {cs : List (Bytes × PTree)}

/-- The entry of a script with well-formed times. -/
theorem lookup_configure {v : Bytes × PTree} (hfile : Scripted readXml file cs) (hv : v ∈ cs)
    (hscript : IsScript v) (htime : WellFormedTime v)
    (hdistinct : ((cs.filter fun u => IsScript u).map commandOf).Nodup) :
    (configure readXml file).scripts2.lookup (commandOf v)
      = if ∀ u ∈ cs, Accepts u then some (weekdaysOf (timesOf v)) else none := by
  obtain ⟨items, hne, htimes⟩ := htime
  rw [(configure_scripts2 hfile).1]
  split
  · obtain ⟨pre, post, rfl⟩ := List.append_of_mem hv
    refine lookup_installed (fun u hu hu' hcmd => ?_) hscript fun hempty =>
      timeText_ne_nil hne (htimes ▸ hempty.1)
    -- two scripts with one command are not distinct
    rw [List.filter_append, List.map_append] at hdistinct
    have hpre : commandOf v ∈ (pre.filter fun u => IsScript u).map commandOf :=
      hcmd ▸ List.mem_map_of_mem (List.mem_filter.mpr ⟨hu, decide_eq_true hu'⟩)
    have hpost : commandOf v ∈ ((v :: post).filter fun u => IsScript u).map commandOf :=
      List.mem_map_of_mem (List.mem_filter.mpr ⟨List.mem_cons_self, decide_eq_true hscript⟩)
    exact absurd hpost (List.disjoint_of_nodup_append hdistinct hpre)
  · exact AList.lookup_empty _

/-- The scripts of a configuration are independent exactly if every one is accepted, or none of
those with well-formed times is. -/
theorem independent_iff (hfile : Scripted readXml file cs)
    (halone : ∀ v ∈ cs, Scripted readXml (alone v) [v])
    (hdistinct : ((cs.filter fun u => IsScript u).map commandOf).Nodup) :
    Independent readXml file alone cs ↔
      (∀ v ∈ cs, Accepts v) ∨ ∀ v ∈ cs, IsScript v → WellFormedTime v → ¬ Accepts v := by
  have hentry : ∀ v ∈ cs, IsScript v → WellFormedTime v →
      (configure readXml (alone v)).scripts2.lookup (commandOf v)
        = if Accepts v then some (weekdaysOf (timesOf v)) else none := by
    intro v hv hscript htime
    rw [lookup_configure (halone v hv) List.mem_cons_self hscript htime
      ((List.filter_sublist.map commandOf).nodup (List.nodup_singleton _))]
    simp only [List.forall_mem_singleton]
  unfold Independent
  by_cases hall : ∀ v ∈ cs, Accepts v
  · refine iff_of_true (fun v hv hscript htime => ?_) (Or.inl hall)
    rw [lookup_configure hfile hv hscript htime hdistinct, hentry v hv hscript htime, if_pos hall,
      if_pos (hall v hv)]
  · rw [or_iff_right hall]
    refine forall₄_congr fun v hv hscript htime => ?_
    rw [lookup_configure hfile hv hscript htime hdistinct, hentry v hv hscript htime, if_neg hall]
    split
    · rename_i haccepts
      exact iff_of_false (Option.some_ne_none _).symm (not_not_intro haccepts)
    · rename_i hnot
      exact iff_of_true rfl hnot

end

/-- A script without a time. -/
def untimedScript (command : String) : Bytes × PTree :=
  (str "script", .node [] [(str "command", .node (str command) [])])

/-- The whole configuration for the empty text, and otherwise that of the script with this
command. -/
def readXmlOf (cs : List (Bytes × PTree)) (text : Bytes) : Option PTree :=
  some (configOf (if text = [] then cs else cs.filter fun v => commandOf v = text))

theorem independent_iff_two :
    Independent
      (readXmlOf [timedScript "test.pl" "0:2:00", timedScript "test2.pl" "0:2:00,3:3:00"])
      (some []) (fun v => some (commandOf v))
      [timedScript "test.pl" "0:2:00", timedScript "test2.pl" "0:2:00,3:3:00"] := by
  refine (independent_iff (scripted_configOf rfl) (fun v hv => ?_) (by decide)).mpr
    (Or.inl (by decide))
  simp only [List.mem_cons, List.not_mem_nil, or_false] at hv
  rcases hv with rfl | rfl <;> exact scripted_configOf rfl

/-- The scripts of the shipped `default.cfg`, where the second one has no time. -/
theorem independent_fails :
    ¬ Independent (readXmlOf [timedScript "test.pl" "0:2:00", untimedScript "test2.pl"])
      (some []) (fun v => some (commandOf v))
      [timedScript "test.pl" "0:2:00", untimedScript "test2.pl"] := by
  intro h
  have hentry := h (timedScript "test.pl" "0:2:00") (by simp) rfl
    ⟨[everyDayAtTwo], by simp, by decide⟩
  exact absurd hentry (by decide +kernel)

end Monitoring.Client
