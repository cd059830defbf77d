import Monitoring.Client.RunningProc
import Monitoring.Proofs.Masterlist
import Monitoring.Proofs.ProgramList

/-!
# `Monitoring.Proofs.Detection`: which programs the Linux tally finds

An entry of PROGRAM_LIST keeps its newline, so `tally_program_count` looks for a line of the
process listing that ends in the entry (`detects_iff_suffix`). The last column of a line is the
name of the process, but a longer name, or the header, may end in the entry as well. And an entry
of two names is looked for as it is, with the colon.
-/

set_option autoImplicit false

namespace Monitoring.Client

open Monitoring.Lib

/-! ### The listing -/

/-- A process in the output of `ps -u`: the columns in front of CMD, with the blank behind them, and
CMD. -/
structure PsLine where
  columns : Bytes
  cmd : Bytes
  columns_blank : columns.getLast? = some (ch ' ')
  columns_line : ch '\n' ∉ columns ∧ 0 ∉ columns
  cmd_line : ch '\n' ∉ cmd ∧ 0 ∉ cmd

/-- The line without its newline. -/
def PsLine.text (line : PsLine) : Bytes := line.columns ++ line.cmd

/-- The output of `ps -u`. -/
structure PsOutput where
  header : Bytes
  processes : List PsLine
  header_line : ch '\n' ∉ header ∧ 0 ∉ header

/-- Its lines, the header included. -/
def PsOutput.lines (out : PsOutput) : List Bytes := out.header :: out.processes.map PsLine.text

/-- What the command prints. -/
def PsOutput.text (out : PsOutput) : Bytes := out.lines.flatMap fun line => line ++ [ch '\n']

/-- Some process has this name. -/
def PsOutput.Runs (out : PsOutput) (name : Bytes) : Prop := ∃ line ∈ out.processes, line.cmd = name

instance PsOutput.decidableRuns (out : PsOutput) (name : Bytes) : Decidable (out.Runs name) :=
  inferInstanceAs (Decidable (∃ line ∈ out.processes, line.cmd = name))

/-- Some line ends in this text. -/
def PsOutput.Ends (out : PsOutput) (text : Bytes) : Prop := ∃ line ∈ out.lines, text <:+ line

instance (out : PsOutput) (text : Bytes) : Decidable (out.Ends text) :=
  inferInstanceAs (Decidable (∃ line ∈ out.lines, text <:+ line))

/-- A program as the server sends it. -/
inductive ProgramName
  | one (name : Bytes)
  | two (secondary primary : Bytes)
deriving DecidableEq, Repr

/-- The entry of the list. -/
def ProgramName.entry : ProgramName → Bytes
  | .one name => name
  | .two secondary primary => secondary ++ [ch ':'] ++ primary

/-- The names of its process. -/
def ProgramName.names : ProgramName → List Bytes
  | .one name => [name]
  | .two secondary primary => [secondary, primary]

/-! ### The search -/

/-- The tally finds the entry at this place of PROGRAM_LIST. -/
def Detects (programList : List Bytes) (ptree : Bytes) (index : Nat) : Prop :=
  ∃ entry, programList[index]? = some entry ∧ entry ≠ [] ∧ entry <:+: ptree

section
variable {out : PsOutput} {s t : ProgramState} {fields : List Bytes} {p : ProgramName} {i : Nat}
  {memory user : Bytes}

/-- The bit of the tally. -/
theorem getLsbD_eq_detects {programList : List Bytes} {ptree : Bytes} {block bit : Nat}
    (hbit : bit < 32) : (tallyProgramCount programList ptree block).getLsbD bit = true ↔
      Detects programList ptree ((block - 1) * 32 + bit) := by
  rw [getLsbD_tallyProgramCount hbit]
  constructor
  · rintro ⟨entry, hentry, hfound, -⟩
    exact ⟨entry, hentry, hfound⟩
  · rintro ⟨entry, hentry, hfound⟩
    exact ⟨entry, hentry, hfound, by omega⟩

/-- No line of the listing holds a newline or a NUL. -/
theorem PsOutput.lines_line {line : Bytes} (h : line ∈ out.lines) :
    ch '\n' ∉ line ∧ 0 ∉ line := by
  rcases List.mem_cons.mp h with rfl | h
  · exact out.header_line
  · obtain ⟨process, -, rfl⟩ := List.mem_map.mp h
    unfold PsLine.text
    simp only [List.mem_append]
    have hcolumns := process.columns_line
    have hcmd := process.cmd_line
    tauto

theorem PsOutput.zero_not_mem_text (out : PsOutput) : 0 ∉ out.text := by
  intro h
  obtain ⟨line, hline, hmem⟩ := List.mem_flatMap.mp h
  rcases List.mem_append.mp hmem with hmem | hmem
  · exact (PsOutput.lines_line hline).2 hmem
  · exact absurd hmem (by decide)

/-- A line ends in the name of its process. -/
theorem PsOutput.Runs.ends {name : Bytes} (h : out.Runs name) : out.Ends name := by
  obtain ⟨process, hprocess, rfl⟩ := h
  exact ⟨process.text, List.mem_cons_of_mem _ (List.mem_map_of_mem hprocess),
    List.suffix_append _ _⟩

/-- The tally finds an entry of the list exactly if a line of the listing ends in it. -/
theorem detects_iff_suffix (hplain : ∀ field ∈ fields, Version.linux.PlainField field)
    (hfile : s.file = some (programText ([ch ','].intercalate fields)))
    (hload : linuxSetProgramList true s = some t) (hi : fields[i]? = some p.entry)
    (hblank : p.entry ≠ []) :
    Detects t.programList (linuxGetRunningProc memory user out.text).text
        (s.programList.length + i) ↔ out.Ends p.entry := by
  have hmem : p.entry ∈ fields := List.mem_of_getElem? hi
  have hlist : t.programList = s.programList ++ fields.map Version.linux.entryOf := by
    unfold linuxSetProgramList at hload
    split at hload
    · cases hload
    · rw [hfile] at hload
      cases hload
      show s.programList ++ fileEntries _ = _
      rw [fileEntries_programText (List.ne_nil_of_mem hmem) hplain]
  have hentry : t.programList[s.programList.length + i]? = some (p.entry ++ [ch '\n']) := by
    rw [hlist, List.getElem?_append_right (Nat.le_add_right _ _), Nat.add_sub_cancel_left,
      List.getElem?_map, hi, Option.map_some]
    exact congrArg some (if_neg hblank)
  unfold Detects
  rw [hentry, linuxGetRunningProc_text out.zero_not_mem_text]
  simp only [Option.some.injEq, exists_eq_left']
  rw [and_iff_right (by simp)]
  exact infix_lines_iff (hplain _ hmem).newline fun line hline => (PsOutput.lines_line hline).1

/-- The listing tells whether the program runs: a single name is at the end of a line only if a
process has it, and of two names a process has one exactly if a line ends in both, with the
colon. -/
def ProgramName.Told (out : PsOutput) : ProgramName → Prop
  | .one name => out.Ends name → out.Runs name
  | .two secondary primary =>
      out.Runs secondary ∨ out.Runs primary ↔ out.Ends (secondary ++ [ch ':'] ++ primary)

/-- For every listing and every entry that is not blank: the tally finds the entry if and only if
the program runs, exactly if the listing tells whether it runs. -/
theorem detects_iff (hplain : ∀ field ∈ fields, Version.linux.PlainField field)
    (hfile : s.file = some (programText ([ch ','].intercalate fields)))
    (hload : linuxSetProgramList true s = some t) (hi : fields[i]? = some p.entry)
    (hblank : p.entry ≠ []) :
    (Detects t.programList (linuxGetRunningProc memory user out.text).text
        (s.programList.length + i) ↔ ∃ name ∈ p.names, out.Runs name) ↔ p.Told out := by
  rw [detects_iff_suffix hplain hfile hload hi hblank]
  cases p with
  | one name =>
      show (out.Ends name ↔ ∃ n ∈ [name], out.Runs n) ↔ (out.Ends name → out.Runs name)
      simp only [List.mem_singleton, exists_eq_left]
      exact ⟨fun h => h.mp, fun h => ⟨h, PsOutput.Runs.ends⟩⟩
  | two secondary primary =>
      show (out.Ends _ ↔ ∃ n ∈ [secondary, primary], out.Runs n) ↔
        (out.Runs secondary ∨ out.Runs primary ↔ out.Ends _)
      simp only [List.mem_cons, List.not_mem_nil, or_false, exists_eq_or_imp, exists_eq_left]
      exact iff_comm

end

/-- A listing with one process of this name. -/
def psOf (cmd : Bytes) (h : ch '\n' ∉ cmd ∧ 0 ∉ cmd) : PsOutput where
  header := str " PID CMD"
  processes := [⟨str "  42 ", cmd, by decide, by decide, h⟩]
  header_line := by decide

/-- The one program of the list runs. -/
theorem detects_iff_running :
    let s := ProgramState.start (some (programText [ch 'a']))
    let out := psOf [ch 'a'] (by decide)
    Detects ((linuxSetProgramList true s).getD s).programList
        (linuxGetRunningProc [] [ch 'u'] out.text).text (s.programList.length + 0) ↔
      ∃ name ∈ (ProgramName.one [ch 'a']).names, out.Runs name := by
  refine (@detects_iff (psOf [ch 'a'] (by decide)) _ _ [[ch 'a']] (.one [ch 'a']) 0 [] [ch 'u']
    ?_ rfl rfl rfl (by decide)).mpr fun _ => by decide
  intro field hfield
  obtain rfl := List.mem_singleton.mp hfield
  exact ⟨by decide, by decide, by decide, by simp⟩

/-- The entry `a` is found where `ba` runs, and the entry `s:p` is not found where `s` runs. -/
theorem detects_fails :
    let one := psOf [ch 'b', ch 'a'] (by decide)
    let two := psOf [ch 's'] (by decide)
    (∃ t, linuxSetProgramList true (.start (some (programText [ch 'a']))) = some t ∧
        Detects t.programList (linuxGetRunningProc [] [ch 'u'] one.text).text 0 ∧
        ¬ ∃ name ∈ (ProgramName.one [ch 'a']).names, one.Runs name) ∧
      ∃ t, linuxSetProgramList true (.start (some (programText [ch 's', ch ':', ch 'p'])))
          = some t ∧
        ¬ Detects t.programList (linuxGetRunningProc [] [ch 'u'] two.text).text 0 ∧
        ∃ name ∈ (ProgramName.two [ch 's'] [ch 'p']).names, two.Runs name := by
  refine ⟨⟨_, rfl, ⟨_, rfl, by decide, by decide +kernel⟩, by decide⟩, _, rfl, ?_, by decide⟩
  rintro ⟨entry, hentry, -, hfound⟩
  cases hentry
  exact absurd hfound (by decide +kernel)

end Monitoring.Client
