import Monitoring.Client.PushedList
import Monitoring.Proofs.Masterlist

/-!
# `Monitoring.Proofs.PushedList`: a pushed list and a returned list

A list that is pushed is written to the masterlist file without its blank fields, and is not read.
A list that a call home returns goes over the old content of the file, with its blank fields, and
is read. `waysAgree_iff` says when the two leave the same file and the same list. Where the file can
be removed, created, written and read, that takes a list with no blank names (on Windows but for the
last one) and an old file that ends with the text of the call home. And the list has to be in force
already, which on Linux it never is where the file can be written and read (`linux_never_agrees`).
-/

set_option autoImplicit false

namespace Monitoring.Client

open Monitoring.Lib

/-- A name that either way can carry. -/
structure PlainName (name : Bytes) : Prop where
  comma : ch ',' ∉ name
  colon : ch ':' ∉ name
  newline : ch '\n' ∉ name
  nul : 0 ∉ name

/-- The push message that carries the list. -/
def pushMessage (names : List Bytes) : Bytes := ch '1' :: [ch ':'].intercalate names

/-- The list that a call home returns. -/
def homeList (names : List Bytes) : Bytes := [ch ','].intercalate names

/-- The file, the list and the count in force are the same. -/
structure SameList (s t : ProgramState) : Prop where
  file : s.file = t.file
  programList : s.programList = t.programList
  programCount : s.programCount = t.programCount

/-- The call home comes to its end, and leaves what the push leaves. -/
def WaysAgree (v : Version) (names : List Bytes) (access : FileAccess) (s : ProgramState) : Prop :=
  ∃ t, v.writeProgramFile (homeList names) access.canWrite access.canRead s = some t ∧
    SameList t (v.listenProgramList (pushMessage names) access s)

/-- The file behind the call home: its text over the old one. -/
def Version.homeFile (v : Version) (names : List Bytes) (access : FileAccess)
    (file : Option Bytes) : Option Bytes :=
  file.map fun old =>
    if access.canWrite then overwrite old (v.masterText (homeList names)) else old

/-- A line for every name that is not blank. -/
def nameLines (names : List Bytes) : Bytes :=
  (names.filter fun name => name ≠ []).flatMap fun name => name ++ [ch '\n']

/-- The file behind the push. -/
def Version.pushedFile (v : Version) (names : List Bytes) (access : FileAccess)
    (file : Option Bytes) : Option Bytes :=
  if access.canCreate then some (v.stored (nameLines names))
  else if access.canRemove then none
  else file

/-- The list in force is the one that a reading of the file leaves. On Linux a reading appends to
the list, so it only does where there is nothing to read. -/
def Version.UpToDate (canRead : Bool) (s : ProgramState) : Version → Prop
  | .linux => ∀ text ∈ s.file, canRead = true → text = [] ∧ s.programCount = 0
  | .windows =>
      match if canRead then s.file else none with
      | none => s.programList = []
      | some text =>
          s.programList = (readTextMode text).splitOn (ch '\n') ∧
            s.programCount = ((readTextMode text).splitOn (ch '\n')).length

/-! ### When the two ways agree -/

/-- The text of the list goes over `old`. No blank name is lost from the push, and the old file ends
where it has to: on Linux within the text; on Windows, where the text has no newline behind its last
name, with that newline, unless this name is blank. -/
def Version.OverwritesAlike (names : List Bytes) (old : Bytes) : Version → Prop
  | .linux => names ≠ [] ∧ [] ∉ names ∧ old.length ≤ (programText (homeList names)).length
  | .windows =>
      [] ∉ names.dropLast ∧
        old.drop (textMode (winProgramText (homeList names))).length =
          if names.getLastD [] = [] then [] else [ch '\r', ch '\n']

/-- When both ways leave the same file. The push creates it if it can, and has removed it before if
it could; the call home only writes to a file that is there. -/
def Version.FilesAgree (v : Version) (names : List Bytes) (access : FileAccess) :
    Option Bytes → Prop
  | none => access.canCreate = false
  | some old =>
      if access.canCreate then
        if access.canWrite then v.OverwritesAlike names old
        else old = v.stored (nameLines names)
      else
        access.canRemove = false ∧
          (access.canWrite = true → v.masterText (homeList names) <+: old)

/-- What the Windows client reads of such a file. A Control-Z in a name ends the text. -/
def textRead (names : List Bytes) (access : FileAccess) (old : Bytes) : Bytes :=
  if access.canCreate then (nameLines names).takeWhile fun c => c ≠ controlZ else readTextMode old

/-- When the reading of such a file changes nothing. On Linux it appends to the list, so it must not
find a line, and the text that the call home writes has one. On Windows the list has to be the one
that is read. -/
def Version.InForce (names : List Bytes) (access : FileAccess) (s : ProgramState) : Version → Prop
  | .linux =>
      ∀ old ∈ s.file, access.canRead = true →
        access.canWrite = false ∧ old = [] ∧ s.programCount = 0
  | .windows =>
      match if access.canRead then s.file else none with
      | none => s.programList = []
      | some old =>
          s.programList = (textRead names access old).splitOn (ch '\n') ∧
            s.programCount = ((textRead names access old).splitOn (ch '\n')).length

section
variable {v : Version} {names : List Bytes} {access : FileAccess} {s : ProgramState}

/-- A text has no lines only if it is empty. -/
theorem fileEntries_eq_nil_iff {text : Bytes} : fileEntries text = [] ↔ text = [] := by
  unfold fileEntries
  rw [List.map_eq_nil_iff]
  constructor
  · intro h
    rw [← flatten_rawLines text, h]
    rfl
  · rintro rfl
    rfl

theorem sameList_iff {t : ProgramState} : SameList s t ↔
    s.file = t.file ∧ s.programList = t.programList ∧ s.programCount = t.programCount :=
  ⟨fun h => ⟨h.file, h.programList, h.programCount⟩, fun h => ⟨h.1, h.2.1, h.2.2⟩⟩

/-- A reading leaves what was there exactly if the list is up to date. -/
theorem setProgramList_same_iff (hfree : s.pfMutex = false) {canRead : Bool} {t : ProgramState}
    (hlist : t.programList = s.programList) (hcount : t.programCount = s.programCount) :
    (∃ u, v.setProgramList canRead s = some u ∧ SameList u t) ↔
      s.file = t.file ∧ v.UpToDate canRead s := by
  simp only [sameList_iff, hlist, hcount]
  cases v with
  | linux =>
      show (∃ u, linuxSetProgramList canRead s = some u ∧ _) ↔ _
      unfold linuxSetProgramList Version.UpToDate
      rw [hfree, if_neg Bool.false_ne_true]
      cases hfile : s.file with
      | none => simp
      | some text =>
          cases canRead with
          | false => simp
          | true =>
              simp only [if_true, Option.some.injEq, exists_eq_left', List.append_right_eq_self,
                fileEntries_eq_nil_iff]
              refine and_congr_right fun _ => ?_
              constructor
              · rintro ⟨rfl, hlength⟩ text' ⟨⟩ -
                exact ⟨rfl, hlength.symm⟩
              · intro h
                obtain ⟨rfl, hzero⟩ := h text rfl trivial
                exact ⟨rfl, hzero.symm⟩
  | windows =>
      show (∃ u, winSetProgramList canRead s = some u ∧ _) ↔ _
      unfold winSetProgramList Version.UpToDate
      rw [hfree, if_neg Bool.false_ne_true]
      cases hfile : s.file with
      | none => cases canRead <;> simp [eq_comm]
      | some text => cases canRead <;> simp [eq_comm]

/-- A locked mutex stops the call home. -/
theorem setProgramList_locked (hlocked : s.pfMutex = true) (canRead : Bool) :
    v.setProgramList canRead s = none := by
  cases v with
  | linux => exact if_pos hlocked
  | windows => exact if_pos hlocked

theorem writeProgramFile_missing (hfile : s.file = none) (list : Bytes) (canWrite canRead : Bool) :
    v.writeProgramFile list canWrite canRead s = v.setProgramList canRead s := by
  cases v with
  | linux =>
      show Client.writeProgramFile list canWrite canRead s = _
      unfold Client.writeProgramFile
      rw [hfile]
      rfl
  | windows =>
      show winWriteProgramFile list canWrite canRead s = _
      unfold winWriteProgramFile
      rw [hfile]
      rfl

/-- A call home writes the file, and then reads it. -/
theorem writeProgramFile_reads (hfree : s.pfMutex = false) (v : Version) (names : List Bytes)
    (access : FileAccess) :
    v.writeProgramFile (homeList names) access.canWrite access.canRead s
      = v.setProgramList access.canRead { s with file := v.homeFile names access s.file } := by
  unfold Version.homeFile
  cases hfile : s.file with
  | none =>
      rw [writeProgramFile_missing hfile]
      exact congrArg (v.setProgramList access.canRead) (by rw [Option.map_none, ← hfile])
  | some old =>
      have hsame : { s with file := some old } = s := by rw [← hfile]
      rw [v.writeProgramFile_eq hfile, if_neg (Bool.eq_false_iff.mp hfree), Option.map_some]
      cases access.canWrite with
      | true => rfl
      | false => exact congrArg (v.setProgramList access.canRead) hsame.symm

/-- The push writes the names that are not blank. -/
theorem listenProgramList_file (hplain : ∀ name ∈ names, PlainName name)
    (hfit : (pushMessage names).length ≤ tmpSize) :
    (v.listenProgramList (pushMessage names) access s).file
      = v.pushedFile names access s.file := by
  have hnul : 0 ∉ pushMessage names := by
    intro h
    rcases List.mem_cons.mp h with h | h
    · exact absurd h (by decide)
    · rcases mem_intercalate h with h | ⟨name, hname, h⟩
      · exact absurd h (by decide)
      · exact (hplain name hname).nul h
  have hlist : (cstr ((pushMessage names).take tmpSize)).drop 1 = [ch ':'].intercalate names := by
    rw [List.take_of_length_le hfit, cstr_eq_self hnul]
    rfl
  have htext : pushedText ([ch ':'].intercalate names) = nameLines names := by
    unfold pushedText nameLines
    cases names with
    | nil => rfl
    | cons name names =>
        rw [List.splitOn_intercalate (ch ':') (fun name hname => (hplain name hname).colon)
          (List.cons_ne_nil _ _)]
  unfold Version.listenProgramList Version.pushedFile
  rw [← htext, ← hlist]

/-- A list with a name is split into its names. -/
theorem splitOn_homeList (hne : names ≠ []) (hplain : ∀ name ∈ names, PlainName name) :
    (homeList names).splitOn (ch ',') = names :=
  List.splitOn_intercalate (ch ',') (fun name hname => (hplain name hname).comma) hne

/-- A blank name costs the push the bytes that end its line. -/
theorem length_lines_eq (names : List Bytes) (ending : Bytes) :
    (names.flatMap fun name => name ++ ending).length =
      ((names.filter fun name => name ≠ []).flatMap fun name => name ++ ending).length +
        names.count [] * ending.length := by
  induction names with
  | nil => simp
  | cons name names ih =>
      rw [List.flatMap_cons, List.length_append, ih]
      by_cases hblank : name = []
      · subst hblank
        rw [List.filter_cons_of_neg (by simp), List.count_cons_self, Nat.add_mul]
        simp only [List.nil_append]
        omega
      · rw [List.filter_cons_of_pos (by simpa using hblank), List.flatMap_cons,
          List.count_cons_of_ne hblank, List.length_append, List.length_append, List.length_append]
        omega

theorem filter_eq_self_of_no_blank (h : [] ∉ names) :
    (names.filter fun name => name ≠ []) = names :=
  List.filter_eq_self.mpr fun _ hname => decide_eq_true fun hblank => h (hblank ▸ hname)

/-- On Linux the text of the call home has a line for every name, the blank ones as well. -/
theorem linux_overwrite_eq_iff (hplain : ∀ name ∈ names, PlainName name) {old : Bytes} :
    overwrite old (programText (homeList names)) = nameLines names ↔
      Version.linux.OverwritesAlike names old := by
  show _ ↔ names ≠ [] ∧ [] ∉ names ∧ _
  by_cases hne : names = []
  · -- the empty list is one blank field, and so a line
    subst hne
    refine iff_of_false ?_ fun h => h.1 rfl
    exact List.cons_ne_nil (ch '\n') (old.drop 1)
  have htext : programText (homeList names) = names.flatMap fun name => name ++ [ch '\n'] := by
    unfold programText
    rw [splitOn_homeList hne hplain]
  have hlines (hblank : [] ∉ names) :
      nameLines names = names.flatMap fun name => name ++ [ch '\n'] := by
    unfold nameLines
    rw [filter_eq_self_of_no_blank hblank]
  rw [htext]
  constructor
  · intro h
    -- the text is longer than the lines by one newline for each blank name
    have hlength := congrArg List.length h
    unfold overwrite nameLines at hlength
    rw [List.length_append, length_lines_eq, List.length_singleton, Nat.mul_one] at hlength
    have hblank : [] ∉ names := List.count_eq_zero.mp (by omega)
    refine ⟨hne, hblank, overwrite_eq_iff.mp ?_⟩
    rw [h, hlines hblank]
  · rintro ⟨-, hblank, hle⟩
    rw [hlines hblank]
    exact overwrite_eq_iff.mpr hle

/-- A text stream of Windows ends each line with two bytes. -/
theorem textMode_lines (hline : ∀ name ∈ names, ch '\n' ∉ name) :
    textMode (names.flatMap fun name => name ++ [ch '\n']) =
      names.flatMap fun name => name ++ [ch '\r', ch '\n'] := by
  unfold textMode
  rw [List.flatMap_assoc]
  refine List.flatMap_congr fun name hname => ?_
  have hname : textMode name = name := textMode_eq_self (hline name hname)
  rw [List.flatMap_append]
  exact congrArg (· ++ [ch '\r', ch '\n']) hname

/-- What has to stand behind a text with no end of line behind its last name, to make it the lines
of all the names that are not blank. -/
theorem lines_append_eq_iff {init : List Bytes} {last rest : Bytes} (hlast : ch '\n' ∉ last) :
    (init.flatMap fun name => name ++ [ch '\r', ch '\n']) ++ last ++ rest =
        ((init ++ [last]).filter fun name => name ≠ []).flatMap
          (fun name => name ++ [ch '\r', ch '\n']) ↔
      [] ∉ init ∧ rest = if last = [] then [] else [ch '\r', ch '\n'] := by
  rw [List.filter_append, List.flatMap_append, List.append_assoc]
  by_cases hblank : last = []
  · subst hblank
    rw [if_pos rfl, List.filter_cons_of_neg (by simp), List.filter_nil, List.flatMap_nil,
      List.append_nil, List.nil_append]
    constructor
    · intro h
      have hlength := congrArg List.length h
      rw [List.length_append, length_lines_eq, List.length_cons, List.length_singleton] at hlength
      exact ⟨List.count_eq_zero.mp (by omega), List.length_eq_zero_iff.mp (by omega)⟩
    · rintro ⟨hinit, rfl⟩
      rw [filter_eq_self_of_no_blank hinit, List.append_nil]
  · rw [if_neg hblank, List.filter_cons_of_pos (by simpa using hblank), List.filter_nil,
      List.flatMap_singleton]
    constructor
    · intro h
      have hrest : 0 < rest.length := by
        -- with nothing behind it, the last name would end with the newline
        rw [List.length_pos_iff]
        rintro rfl
        have hends := congrArg List.getLast? h
        rw [List.append_nil, List.getLast?_append_of_ne_nil _ hblank] at hends
        have hnewline : last.getLast? = some (ch '\n') := by simpa using hends
        exact hlast (List.mem_of_getLast? hnewline)
      have hlength := congrArg List.length h
      simp only [List.length_append] at hlength
      rw [length_lines_eq, List.length_cons, List.length_singleton] at hlength
      have hinit : [] ∉ init := List.count_eq_zero.mp (by omega)
      rw [filter_eq_self_of_no_blank hinit] at h
      exact ⟨hinit, List.append_cancel_left (List.append_cancel_left h)⟩
    · rintro ⟨hinit, rfl⟩
      rw [filter_eq_self_of_no_blank hinit]

/-- On Windows the text of the call home has no newline behind its last name. -/
theorem windows_overwrite_eq_iff (hplain : ∀ name ∈ names, PlainName name) {old : Bytes} :
    overwrite old (textMode (winProgramText (homeList names))) = textMode (nameLines names) ↔
      Version.windows.OverwritesAlike names old := by
  show _ ↔ [] ∉ names.dropLast ∧ _
  have hpush : textMode (nameLines names) =
      (names.filter fun name => name ≠ []).flatMap fun name => name ++ [ch '\r', ch '\n'] :=
    textMode_lines fun name hname => (hplain name (List.mem_of_mem_filter hname)).newline
  rw [hpush]
  unfold overwrite
  rcases List.eq_nil_or_concat' names with rfl | ⟨init, last, rfl⟩
  · -- the empty list is one blank field
    show [] ++ old.drop 0 = [] ↔ _ ∧ old.drop 0 = []
    simp
  have hlast : ch '\n' ∉ last := (hplain last (List.mem_append_right _ List.mem_cons_self)).newline
  have hhome : textMode (winProgramText (homeList (init ++ [last]))) =
      (init.flatMap fun name => name ++ [ch '\r', ch '\n']) ++ last := by
    have hinit (name : Bytes) (hname : name ∈ init) : ch '\n' ∉ name :=
      (hplain name (List.mem_append_left _ hname)).newline
    unfold winProgramText
    rw [splitOn_homeList (List.concat_ne_nil last init) hplain, intercalate_concat,
      textMode_append, textMode_lines hinit, textMode_eq_self hlast]
  rw [hhome, lines_append_eq_iff hlast, List.dropLast_concat, List.getLastD_concat]

/-- Both ways leave the same file exactly if the names, the old file and the access rights are
such. -/
theorem homeFile_eq_pushedFile_iff (hplain : ∀ name ∈ names, PlainName name) {file : Option Bytes} :
    v.homeFile names access file = v.pushedFile names access file ↔
      v.FilesAgree names access file := by
  unfold Version.homeFile Version.pushedFile
  obtain ⟨canWrite, canRead, canRemove, canCreate⟩ := access
  cases file with
  | none => cases canCreate <;> simp [Version.FilesAgree]
  | some old =>
      cases canCreate with
      | true =>
          cases canWrite with
          | true =>
              show some (overwrite old (v.masterText (homeList names))) = some _ ↔
                v.OverwritesAlike names old
              rw [Option.some.injEq]
              cases v with
              | linux => exact linux_overwrite_eq_iff hplain
              | windows => exact windows_overwrite_eq_iff hplain
          | false =>
              show some old = some _ ↔ old = v.stored (nameLines names)
              rw [Option.some.injEq]
      | false =>
          cases canRemove with
          | true => simp [Version.FilesAgree]
          | false =>
              cases canWrite with
              | true =>
                  -- what is written over the old file has to be there already
                  simp [Version.FilesAgree, overwrite, List.prefix_iff_eq_append]
              | false => simp [Version.FilesAgree]

/-- Where the files are the same, the Windows client reads the text of the push, or the old one. -/
theorem readTextMode_homeFile {old text : Bytes}
    (hfiles : Version.windows.homeFile names access (some old)
      = Version.windows.pushedFile names access (some old))
    (htext : Version.windows.homeFile names access (some old) = some text) :
    readTextMode text = textRead names access old := by
  rw [hfiles] at htext
  unfold Version.pushedFile at htext
  unfold textRead
  split at htext
  · obtain rfl := Option.some.inj htext
    rw [if_pos ‹_›]
    exact readTextMode_textMode_eq _
  · rw [if_neg ‹_›]
    split at htext
    · cases htext
    · rw [Option.some.inj htext]

/-- Where the files are the same, the reading of the call home changes nothing exactly if the list
of the push is in force. -/
theorem upToDate_iff_inForce
    (hfiles : v.homeFile names access s.file = v.pushedFile names access s.file) :
    v.UpToDate access.canRead { s with file := v.homeFile names access s.file } ↔
      v.InForce names access s := by
  cases v with
  | linux =>
      show (∀ text ∈ Version.linux.homeFile names access s.file, _ → _) ↔ ∀ old ∈ s.file, _ → _
      unfold Version.homeFile
      cases hfile : s.file with
      | none => simp
      | some old =>
          -- a text that is written has a line at least
          have htext : overwrite old (programText (homeList names)) ≠ [] := by
            obtain ⟨field, fields, hfields⟩ :=
              List.exists_cons_of_ne_nil (List.splitOn_ne_nil (ch ',') (homeList names))
            unfold programText overwrite
            rw [hfields, List.flatMap_cons]
            simp
          cases access.canWrite with
          | true => simp [Version.masterText, htext]
          | false => simp
  | windows =>
      unfold Version.UpToDate Version.InForce
      cases hread : access.canRead with
      | false => exact Iff.rfl
      | true =>
          cases hfile : s.file with
          | none => exact Iff.rfl
          | some old =>
              rw [hfile] at hfiles
              show (_ = (readTextMode _).splitOn (ch '\n') ∧
                _ = ((readTextMode _).splitOn (ch '\n')).length) ↔ _
              rw [readTextMode_homeFile hfiles rfl]
              exact Iff.rfl

/-- A call home that waits for the mutex does not come to its end. -/
theorem not_waysAgree_of_locked (hlocked : s.pfMutex = true) : ¬ WaysAgree v names access s := by
  rintro ⟨t, ht, -⟩
  cases hfile : s.file with
  | none =>
      rw [writeProgramFile_missing hfile, setProgramList_locked hlocked] at ht
      cases ht
  | some old =>
      rw [v.writeProgramFile_eq hfile, hlocked, if_pos rfl, setProgramList_locked hlocked,
        ite_self] at ht
      cases ht

/-- Where the mutex is free, the call home reads the file that it has written. -/
theorem waysAgree_of_free_iff (hplain : ∀ name ∈ names, PlainName name)
    (hfit : (pushMessage names).length ≤ tmpSize) (hfree : s.pfMutex = false) :
    WaysAgree v names access s ↔
      v.FilesAgree names access s.file ∧ v.InForce names access s := by
  have hread : { s with file := v.homeFile names access s.file }.pfMutex = false := hfree
  have hpush : (v.listenProgramList (pushMessage names) access s).programList = s.programList ∧
      (v.listenProgramList (pushMessage names) access s).programCount = s.programCount := ⟨rfl, rfl⟩
  unfold WaysAgree
  rw [writeProgramFile_reads hfree v names access, setProgramList_same_iff hread hpush.1 hpush.2,
    listenProgramList_file hplain hfit, ← homeFile_eq_pushedFile_iff hplain]
  exact and_congr_right upToDate_iff_inForce

/-- On Linux the two ways never agree where the call home can write the file and read it. -/
theorem linux_never_agrees {old : Bytes} (hplain : ∀ name ∈ names, PlainName name)
    (hfit : (pushMessage names).length ≤ tmpSize) (hfile : s.file = some old)
    (hwrite : access.canWrite = true) (hread : access.canRead = true) :
    ¬ WaysAgree .linux names access s := by
  cases hmutex : s.pfMutex with
  | true => exact not_waysAgree_of_locked hmutex
  | false =>
      rw [waysAgree_of_free_iff hplain hfit hmutex]
      rintro ⟨-, hforce⟩
      have hnot : access.canWrite = false := (hforce old hfile hread).1
      rw [hwrite] at hnot
      cases hnot

/-- For every list that fits and every state: the two ways agree exactly if the mutex is free, the
names and the old file are such that the same file is left, and the list of the push is in force
already. -/
theorem waysAgree_iff (hplain : ∀ name ∈ names, PlainName name)
    (hfit : (pushMessage names).length ≤ tmpSize) :
    WaysAgree v names access s ↔
      s.pfMutex = false ∧ v.FilesAgree names access s.file ∧ v.InForce names access s := by
  cases hmutex : s.pfMutex with
  | true => exact iff_of_false (not_waysAgree_of_locked hmutex) (by simp)
  | false =>
      rw [waysAgree_of_free_iff hplain hfit hmutex]
      exact ⟨fun h => ⟨rfl, h⟩, fun h => h.2⟩

end

/-- A Windows client gets the list that it has. -/
theorem waysAgree_iff_again :
    WaysAgree .windows [[ch 'a']] ⟨true, true, true, true⟩
      ⟨some [ch 'a', 13, ch '\n'], [[ch 'a'], []], 2, false, none⟩ := by
  refine (waysAgree_iff ?_ (by decide)).mpr
    ⟨rfl, And.intro (by decide) (by decide), And.intro (by decide) (by decide)⟩
  rintro name hname
  obtain rfl := List.mem_singleton.mp hname
  exact ⟨by decide, by decide, by decide, by decide⟩

/-- A client with an empty masterlist. The push leaves `a` in the file and nothing in force, the
call home has `a` in force. And a list whose first field is blank loses the blank line on one way
only. -/
theorem waysAgree_fails :
    (¬ WaysAgree .linux [[ch 'a']] ⟨true, true, true, true⟩ (ProgramState.start (some []))) ∧
    (Version.linux.listenProgramList (pushMessage [[ch 'a']]) ⟨true, true, true, true⟩
        (ProgramState.start (some []))).programList = [] ∧
    (Version.linux.listenProgramList (pushMessage [[], [ch 'b']]) ⟨true, true, true, true⟩
        (ProgramState.start (some []))).file = some [ch 'b', ch '\n'] ∧
    (Version.linux.writeProgramFile (homeList [[], [ch 'b']]) true true
        (ProgramState.start (some []))).map (·.file) = some (some [ch '\n', ch 'b', ch '\n']) := by
  refine ⟨?_, by decide, by decide, by decide⟩
  rintro ⟨t, ht, -, hlist, -⟩
  obtain rfl := Option.some.inj ht
  exact absurd hlist (by decide)

end Monitoring.Client
