import Monitoring.Client.WindowsList

/-!
# `Monitoring.Proofs.Masterlist`: the masterlist file, written and read

`write_program_file` is to overwrite the file with the list of the server, but the `fstream` it
writes to does not truncate. The text goes over the first bytes of the file, and a longer file
keeps its tail (`writeProgramFile_file`): further entries behind the last one, or a piece of a
name. `set_program_list` only reads the file, so what is written stays
(`Version.setProgramList_file`).

Where the file is empty at first, the list is read back as it was written
(`writeProgramFile_roundTrip`). The two programs agree on nothing else: on Linux each line ends with
a newline, and an entry keeps it; on Windows the newlines stand between the lines.
-/

set_option autoImplicit false

namespace Monitoring.Client

open Monitoring.Lib

/-- The file as the list describes it: every field on a line, with a newline behind each on Linux
and between them on Windows. -/
def Version.masterText : Version → Bytes → Bytes
  | .linux, list => programText list
  | .windows, list => textMode (winProgramText list)

/-- `set_program_list` of either program. -/
def Version.setProgramList : Version → Bool → ProgramState → Option ProgramState
  | .linux => linuxSetProgramList
  | .windows => winSetProgramList

section
variable {v : Version} {list old : Bytes} {canWrite canRead : Bool} {s t : ProgramState}

/-- The shape that both programs have. -/
theorem Version.writeProgramFile_eq (v : Version) (hfile : s.file = some old) :
    v.writeProgramFile list canWrite canRead s =
      if canWrite then
        if s.pfMutex then none
        else v.setProgramList canRead { s with file := some (overwrite old (v.masterText list)) }
      else v.setProgramList canRead s := by
  cases v with
  | linux =>
      show Client.writeProgramFile list canWrite canRead s = _
      unfold Client.writeProgramFile
      rw [hfile]
      rfl
  | windows =>
      show winWriteProgramFile list canWrite canRead s = _
      unfold winWriteProgramFile
      rw [hfile]
      rfl

/-- Reading the file does not change it. -/
theorem Version.setProgramList_file (h : v.setProgramList canRead s = some t) :
    t.file = s.file := by
  cases v with
  | linux =>
      change linuxSetProgramList canRead s = some t at h
      unfold linuxSetProgramList at h
      split at h
      · cases h
      · split at h
        · obtain rfl := Option.some.inj h
          rfl
        · split at h <;> (obtain rfl := Option.some.inj h; rfl)
  | windows =>
      change winSetProgramList canRead s = some t at h
      unfold winSetProgramList at h
      split at h
      · cases h
      · dsimp only at h
        split at h
        · obtain rfl := Option.some.inj h
          rfl
        · split at h <;> (obtain rfl := Option.some.inj h; rfl)

/-- The file behind the call: the text, and what was behind its end. -/
theorem Version.writeProgramFile_file (hfile : s.file = some old)
    (h : v.writeProgramFile list canWrite canRead s = some t) :
    t.file = some (if canWrite then overwrite old (v.masterText list) else old) := by
  rw [v.writeProgramFile_eq hfile] at h
  cases canWrite with
  | true =>
      rw [if_pos rfl] at h
      split at h
      · cases h
      · exact setProgramList_file h
  | false =>
      rw [if_neg Bool.false_ne_true] at h
      rw [setProgramList_file h, hfile]
      rfl

end

/-! ### What is written -/

theorem overwrite_eq_iff {old new : Bytes} : overwrite old new = new ↔ old.length ≤ new.length := by
  show new ++ old.drop new.length = new ↔ _
  rw [List.append_right_eq_self, List.drop_eq_nil_iff]

/-- A call that returns leaves the text of the list in the file, and nothing else, exactly if it can
open the file and the file is not longer than the text, or the file has been that text before. -/
theorem writeProgramFile_replaces_iff (v : Version) {list old : Bytes} {canWrite canRead : Bool}
    {s t : ProgramState} (hfile : s.file = some old)
    (hreturns : v.writeProgramFile list canWrite canRead s = some t) :
    t.file = some (v.masterText list) ↔
      canWrite = true ∧ old.length ≤ (v.masterText list).length ∨ old = v.masterText list := by
  rw [Version.writeProgramFile_file hfile hreturns, Option.some.injEq]
  cases canWrite with
  | true =>
      rw [if_pos rfl, overwrite_eq_iff]
      constructor
      · exact fun hle => Or.inl ⟨rfl, hle⟩
      · rintro (⟨-, hle⟩ | rfl)
        · exact hle
        · exact Nat.le_refl _
  | false =>
      rw [if_neg Bool.false_ne_true]
      constructor
      · exact Or.inr
      · rintro (⟨h, -⟩ | h)
        · cases h
        · exact h

/-- The file holds one program, and the list has two. -/
theorem writeProgramFile_replaces_iff_longer :
    let s := ProgramState.start (some [ch 'a', ch '\n'])
    let list := [ch 'a', ch ',', ch 'b']
    ((Version.linux.writeProgramFile list true true s).getD s).file =
      some (Version.linux.masterText list) :=
  (@writeProgramFile_replaces_iff .linux [ch 'a', ch ',', ch 'b'] [ch 'a', ch '\n'] true true
    (ProgramState.start (some [ch 'a', ch '\n'])) _ rfl rfl).mpr (Or.inl (by decide))

/-- The file holds two programs, and the list has one: the second program stays. -/
theorem writeProgramFile_replaces_fails :
    ∃ t, Version.linux.writeProgramFile [ch 'c'] true true
        (ProgramState.start (some [ch 'a', ch '\n', ch 'b', ch '\n'])) = some t ∧
      t.file ≠ some (Version.linux.masterText [ch 'c']) ∧
      t.programList = [[ch 'c', ch '\n'], [ch 'b', ch '\n']] :=
  ⟨_, rfl, by decide, by decide⟩

/-! ### What is read back -/

theorem textMode_append (a b : Bytes) : textMode (a ++ b) = textMode a ++ textMode b :=
  List.flatMap_append

/-- A text stream only changes newlines. -/
theorem textMode_eq_self {text : Bytes} (h : ch '\n' ∉ text) : textMode text = text := by
  unfold textMode
  refine (List.flatMap_congr fun c hc => if_neg ?_).trans (List.flatMap_singleton' text)
  rintro rfl
  exact h hc

/-- What a text stream stores, it delivers again up to the first Control-Z. -/
theorem readTextMode_textMode_eq (text : Bytes) :
    readTextMode (textMode text) = text.takeWhile fun c => c ≠ controlZ := by
  induction text with
  | nil => rfl
  | cons c text ih =>
      by_cases hnl : c = ch '\n'
      · subst hnl
        show ch '\n' :: readTextMode (textMode text) = _
        rw [ih]
        rfl
      · have hcons : textMode (c :: text) = c :: textMode text := by
          show (if c = ch '\n' then _ else [c]) ++ textMode text = _
          rw [if_neg hnl]
          rfl
        have htake : ((c :: text).takeWhile fun c => c ≠ controlZ) =
            if c = controlZ then [] else c :: readTextMode (textMode text) := by
          rw [ih, List.takeWhile_cons]
          by_cases hc : c = controlZ <;> simp [hc]
        rw [hcons, htake]
        -- a newline is stored behind its carriage return, so it does not come next
        cases text with
        | nil => rfl
        | cons d text =>
            obtain ⟨first, stored, hstored, hfirst⟩ : ∃ first stored,
                textMode (d :: text) = first :: stored ∧ first ≠ ch '\n' := by
              by_cases hd : d = ch '\n'
              · subst hd
                exact ⟨ch '\r', ch '\n' :: textMode text, rfl, by decide⟩
              · refine ⟨d, textMode text, ?_, hd⟩
                show (if d = ch '\n' then _ else [d]) ++ textMode text = _
                rw [if_neg hd]
                rfl
            have hpair : ¬ (c = ch '\r' ∧ first = ch '\n') := fun h => hfirst h.2
            rw [hstored, readTextMode, if_neg hpair]

/-- So where there is none, all of it is delivered. -/
theorem readTextMode_textMode {text : Bytes} (h : controlZ ∉ text) :
    readTextMode (textMode text) = text := by
  rw [readTextMode_textMode_eq, List.takeWhile_eq_self_iff]
  exact fun c hc => decide_eq_true fun heq => h (heq ▸ hc)

/-- What `set_program_list` makes of a field. -/
def Version.entryOf : Version → Bytes → Bytes
  | .linux, field => if field = [] then [] else field ++ [ch '\n']
  | .windows, field => field

/-- A field that can stand in a list and on a line. On Windows the file is a text file. -/
structure Version.PlainField (v : Version) (field : Bytes) : Prop where
  comma : ch ',' ∉ field
  newline : ch '\n' ∉ field
  nul : 0 ∉ field
  text : v = .windows → controlZ ∉ field

/-- An entry of the Linux program. -/
theorem lineEntry_field {field : Bytes} (hnul : 0 ∉ field) :
    lineEntry (field ++ [ch '\n']) = Version.linux.entryOf field := by
  unfold lineEntry
  cases field with
  | nil => rfl
  | cons c field =>
      have hline : 0 ∉ c :: field ++ [ch '\n'] := by
        rw [List.mem_append, List.mem_singleton]
        rintro (h | h)
        · exact hnul h
        · exact absurd h (by decide)
      rw [if_pos (by simp), cstr_eq_self hline]
      rfl

section
variable {fields : List Bytes}

/-- The Linux program reads the fields of a file that holds nothing else. -/
theorem fileEntries_programText (hne : fields ≠ [])
    (hplain : ∀ field ∈ fields, Version.linux.PlainField field) :
    fileEntries (programText ([ch ','].intercalate fields)) =
      fields.map Version.linux.entryOf := by
  unfold programText fileEntries
  rw [List.splitOn_intercalate (ch ',') (fun field h => (hplain field h).comma) hne,
    rawLines_flatMap fun field h => (hplain field h).newline, List.map_map]
  exact List.map_congr_left fun field h => lineEntry_field (hplain field h).nul

/-- So does the Windows program. -/
theorem splitOn_winProgramText (hne : fields ≠ [])
    (hplain : ∀ field ∈ fields, Version.windows.PlainField field) :
    (readTextMode (textMode (winProgramText ([ch ','].intercalate fields)))).splitOn (ch '\n') =
      fields := by
  unfold winProgramText
  rw [List.splitOn_intercalate (ch ',') (fun field h => (hplain field h).comma) hne]
  have htext : controlZ ∉ [ch '\n'].intercalate fields := by
    intro h
    rcases mem_intercalate h with h | ⟨field, hfield, hmem⟩
    · exact absurd h (by decide)
    · exact (hplain field hfield).text rfl hmem
  rw [readTextMode_textMode htext]
  exact List.splitOn_intercalate (ch '\n') (fun field h => (hplain field h).newline) hne

end

/-- A list that is written to an empty file is read back: one entry for each field, in order. -/
theorem writeProgramFile_roundTrip (v : Version) {fields : List Bytes} (hne : fields ≠ [])
    (hplain : ∀ field ∈ fields, v.PlainField field) {s : ProgramState} (hfile : s.file = some [])
    (hlist : s.programList = []) (hfree : s.pfMutex = false) :
    ∃ t, v.writeProgramFile ([ch ','].intercalate fields) true true s = some t ∧
      t.programCount = fields.length ∧ t.programList = fields.map v.entryOf := by
  -- nothing of the empty file is left behind the text
  rw [v.writeProgramFile_eq hfile, if_pos rfl, hfree, if_neg Bool.false_ne_true,
    overwrite_eq_iff.mpr (Nat.zero_le _)]
  cases v with
  | linux =>
      have hentries := fileEntries_programText hne hplain
      refine ⟨_, rfl, ?_, ?_⟩
      · show (fileEntries (programText ([ch ','].intercalate fields))).length = fields.length
        rw [hentries, List.length_map]
      · show s.programList ++ fileEntries (programText ([ch ','].intercalate fields)) = _
        rw [hentries, hlist, List.nil_append]
  | windows =>
      have hlines := splitOn_winProgramText hne hplain
      refine ⟨_, rfl, ?_, ?_⟩
      · exact congrArg List.length hlines
      · rw [show fields.map Version.windows.entryOf = fields from List.map_id _]
        exact hlines

/-- A list with a blank field at its end, on Linux. -/
theorem writeProgramFile_roundTrip_blank :
    ∃ t, Version.linux.writeProgramFile [ch 'a', ch ','] true true (.start (some [])) = some t ∧
      t.programCount = 2 ∧ t.programList = [[ch 'a', ch '\n'], []] := by
  refine @writeProgramFile_roundTrip .linux [[ch 'a'], []] (by simp) ?_ _ rfl rfl rfl
  intro field hfield
  simp only [List.mem_cons, List.not_mem_nil, or_false] at hfield
  rcases hfield with rfl | rfl <;> exact ⟨by decide, by decide, by decide, by simp⟩

/-- The Windows program reads no further than a Control-Z: of two fields one is left, cut off. -/
theorem writeProgramFile_roundTrip_fails :
    let fields := [[ch 'a', controlZ], [ch 'b']]
    (∀ field ∈ fields, ch ',' ∉ field ∧ ch '\n' ∉ field ∧ 0 ∉ field) ∧
    ∃ t, Version.windows.writeProgramFile ([ch ','].intercalate fields) true true
        (.start (some [])) = some t ∧
      t.programCount = 1 ∧ t.programList = [[ch 'a']] :=
  ⟨by decide, _, rfl, by decide, by decide⟩

end Monitoring.Client
