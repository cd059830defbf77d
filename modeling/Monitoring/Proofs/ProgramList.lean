import Monitoring.Client.ProgramList
import Monitoring.Lib.Rank

/-!
# `Monitoring.Proofs.ProgramList`: the list, its count, and the bits

`ListMatches` is what the rest of the client relies on: PROGRAM_LIST holds the lines of the file
as last read, PROGRAM_COUNT is its length, and so the tally has no bit behind the last program.
`linux_set_program_list` appends to PROGRAM_LIST and does not clear it first, so a reading keeps
this exactly if the list is empty before it, and the file has no line that the C strings of the
loop change. `listMatches_iff` is the statement for every history.
-/

set_option autoImplicit false

namespace Monitoring.Client

open Monitoring.Lib

/-! ### The bits of a tally -/

/-- The entry at `index` occurs in the process listing, and its bit is `p`. -/
def Sets (programList : List Bytes) (ptree : Bytes) (p index : Nat) : Prop :=
  ∃ entry, programList[index]? = some entry ∧ (entry ≠ [] ∧ entry <:+: ptree) ∧ index % 32 = p

section
variable {programList : List Bytes} {ptree : Bytes} {p : Nat}

/-- One pass of the loop. -/
theorem getLsbD_pass (hp : p < 32) {index : Nat} {entry : Bytes}
    (hentry : programList[index]? = some entry) (currentProgs : BitVec 32) :
    (if entry ≠ [] ∧ entry <:+: ptree then currentProgs ||| shiftOne index
      else currentProgs).getLsbD p = true ↔
      currentProgs.getLsbD p = true ∨ Sets programList ptree p index := by
  unfold Sets
  rw [hentry]
  simp only [Option.some.injEq, exists_eq_left']
  by_cases hfound : entry ≠ [] ∧ entry <:+: ptree
  · rw [if_pos hfound, BitVec.getLsbD_or, shiftOne, BitVec.getLsbD_twoPow, Bool.or_eq_true]
    simp [hp, hfound, Nat.mod_lt index (by decide : 0 < 32)]
  · rw [if_neg hfound]
    simp [hfound]

/-- A bit of the loop is set by an entry it passes. Induction on the passes that are left. -/
theorem getLsbD_tallyFrom (hp : p < 32) (n index : Nat) (currentProgs : BitVec 32) :
    (tallyFrom programList ptree n index currentProgs).getLsbD p = true ↔
      currentProgs.getLsbD p = true ∨
      ∃ j, index ≤ j ∧ j < index + n ∧ Sets programList ptree p j := by
  induction n generalizing index currentProgs with
  | zero =>
      unfold tallyFrom
      constructor
      · exact Or.inl
      · rintro (h | ⟨j, h1, h2, -⟩)
        · exact h
        · omega
  | succ n ih =>
      unfold tallyFrom
      cases hentry : programList[index]? with
      | none =>
          -- the list ends here, so no later entry is there either
          have hend : programList.length ≤ index := List.getElem?_eq_none_iff.mp hentry
          constructor
          · exact Or.inl
          · rintro (h | ⟨j, h1, -, entry, hj, -⟩)
            · exact h
            · rw [List.getElem?_eq_none_iff.mpr (by omega)] at hj
              cases hj
      | some entry =>
          dsimp only
          -- the entry of this pass, or one of the passes that are left
          rw [ih, getLsbD_pass hp hentry, exists_place_succ, or_assoc]

/-- Bit `p` of block `block` belongs to entry `32 * (block - 1) + p`. -/
theorem getLsbD_tallyProgramCount (hp : p < 32) (block : Nat) :
    (tallyProgramCount programList ptree block).getLsbD p = true ↔
      Sets programList ptree p ((block - 1) * 32 + p) := by
  unfold tallyProgramCount
  rw [getLsbD_tallyFrom hp]
  constructor
  · rintro (h | ⟨j, h1, h2, h⟩)
    · simp at h
    · obtain ⟨entry, hj, hfound, hmod⟩ := h
      -- 32 consecutive indices have 32 different residues
      obtain rfl : j = (block - 1) * 32 + p := by omega
      exact ⟨entry, hj, hfound, hmod⟩
  · exact fun h => Or.inr ⟨_, by omega, by omega, h⟩

end

/-! ### The lines of the file -/

/-- The lines of a text as the list should have them: an empty line holds its place, the others
keep their newline. -/
def masterLines (text : Bytes) : List Bytes :=
  (rawLines text).map fun line => if line = [ch '\n'] then [] else line

/-- No line holds a NUL, and the last one, if it has no newline, is longer than a byte. -/
def PlainText (text : Bytes) : Prop :=
  ∀ line ∈ rawLines text, 0 ∉ line ∧ (line.length = 1 → line = [ch '\n'])

instance (text : Bytes) : Decidable (PlainText text) :=
  inferInstanceAs (Decidable (∀ line ∈ rawLines text, _ ∧ _))

/-- Which lines become what they should. -/
theorem lineEntry_eq_iff {line : Bytes} (hne : line ≠ []) :
    lineEntry line = (if line = [ch '\n'] then [] else line) ↔
      0 ∉ line ∧ (line.length = 1 → line = [ch '\n']) := by
  have hpos : 0 < line.length := List.length_pos_iff.mpr hne
  unfold lineEntry
  by_cases hnl : line = [ch '\n']
  · subst hnl
    decide
  · rw [if_neg hnl]
    -- a line of one byte becomes the empty entry, whatever the byte is
    by_cases hlong : 1 < line.length
    · rw [if_pos hlong, cstr_eq_self_iff]
      exact ⟨fun h => ⟨h, fun h1 => by omega⟩, fun h => h.1⟩
    · rw [if_neg hlong]
      exact ⟨fun h => absurd h.symm hne, fun h => absurd (h.2 (by omega)) hnl⟩

/-- The loop reads the lines of exactly these texts. -/
theorem fileEntries_eq_iff (text : Bytes) :
    fileEntries text = masterLines text ↔ PlainText text := by
  unfold fileEntries masterLines PlainText
  rw [List.map_inj_left]
  exact forall₂_congr fun line hline => lineEntry_eq_iff (ne_nil_of_mem_rawLines hline)

/-! ### One event -/

/-- The text that the event reads, if it reads one: a call that finds the mutex free and can open
the file. -/
def readsText (s : ProgramState) : ListEvent → Option Bytes
  | .edit _ => none
  | .gather canRead =>
      if s.programCount = 0 ∧ s.pfMutex = false ∧ canRead = true then s.file else none
  | .callHome list canWrite canRead =>
      if s.pfMutex = false ∧ canRead = true then
        s.file.map fun old => if canWrite then overwrite old (programText list) else old
      else none

/-- What a reading does to the list, its count and the ghost. -/
def afterReading (s t : ProgramState) : Option Bytes → Prop
  | none => t.programList = s.programList ∧ t.programCount = s.programCount ∧
      t.lastRead = s.lastRead
  | some text => t.programList = s.programList ++ fileEntries text ∧
      t.programCount = (fileEntries text).length ∧ t.lastRead = some text

section
variable {s t : ProgramState}

/-- A call of `set_program_list`, also one that never returns. -/
theorem linuxSetProgramList_reads (canRead : Bool) :
    afterReading s ((linuxSetProgramList canRead s).getD s)
      (if s.pfMutex = false ∧ canRead = true then s.file else none) := by
  unfold linuxSetProgramList
  cases hmutex : s.pfMutex with
  | true => exact ⟨rfl, rfl, rfl⟩
  | false =>
      cases hfile : s.file with
      | none => cases canRead <;> exact ⟨rfl, rfl, rfl⟩
      | some text => cases canRead <;> exact ⟨rfl, rfl, rfl⟩

/-- An event reads `readsText`, and changes the list in no other way. -/
theorem listStep_reads {e : ListEvent} (h : listStep s e = some t) :
    afterReading s t (readsText s e) := by
  cases e with
  | edit file =>
      cases h
      exact ⟨rfl, rfl, rfl⟩
  | gather canRead =>
      cases h
      unfold readsText gatherSetProgramList
      by_cases hcount : s.programCount = 0
      · have hcall := linuxSetProgramList_reads (s := s) canRead
        simpa [hcount] using hcall
      -- a count that is not 0 keeps `gather_data` from reading the file
      · simp only [hcount, if_false, false_and]
        exact ⟨rfl, rfl, rfl⟩
  | callHome list canWrite canRead =>
      cases h
      unfold readsText writeProgramFile
      cases hfile : s.file with
      | none =>
          have hcall := linuxSetProgramList_reads (s := s) canRead
          simpa [hfile] using hcall
      | some old =>
          cases canWrite with
          | false =>
              have hcall := linuxSetProgramList_reads (s := s) canRead
              simpa [hfile] using hcall
          | true =>
              cases hmutex : s.pfMutex with
              | true => exact ⟨rfl, rfl, rfl⟩
              | false => cases canRead <;> simp [linuxSetProgramList, afterReading]

end

/-! ### Histories -/

/-- PROGRAM_LIST holds PROGRAM_COUNT entries, the lines of the file as last read, and no tally of
its blocks has a bit from PROGRAM_COUNT on. -/
structure ListMatches (s : ProgramState) : Prop where
  entries : s.programList = masterLines (s.lastRead.getD [])
  count : s.programCount = s.programList.length
  noStray : ∀ (ptree : Bytes) (block p : Nat), 1 ≤ block → block ≤ (s.programCount + 31) / 32 →
    p < 32 → (tallyProgramCount s.programList ptree block).getLsbD p = true →
    32 * (block - 1) + p < s.programCount

/-- The bits follow from the count. -/
theorem ListMatches.of_count {s : ProgramState}
    (entries : s.programList = masterLines (s.lastRead.getD []))
    (count : s.programCount = s.programList.length) : ListMatches s where
  entries := entries
  count := count
  noStray := by
    intro ptree block p _ _ hp hbit
    obtain ⟨entry, hentry, -⟩ := (getLsbD_tallyProgramCount hp block).mp hbit
    -- the entry is on the list, and the count is the length of the list
    obtain ⟨hlt, -⟩ := List.getElem?_eq_some_iff.mp hentry
    omega

/-- The event finds the list empty, and the text is plain, if it reads one at all. -/
def ReadsClean (s : ProgramState) (e : ListEvent) : Prop :=
  ∀ text ∈ readsText s e, s.programList = [] ∧ PlainText text

instance (s : ProgramState) (e : ListEvent) : Decidable (ReadsClean s e) :=
  inferInstanceAs (Decidable (∀ text ∈ readsText s e, s.programList = [] ∧ PlainText text))

/-- One event keeps the invariant exactly if it reads nothing or reads clean. -/
theorem listMatches_step_iff {s t : ProgramState} {e : ListEvent} (hs : ListMatches s)
    (h : listStep s e = some t) : ListMatches t ↔ ReadsClean s e := by
  have hreads := listStep_reads h
  unfold ReadsClean
  cases htext : readsText s e with
  | none =>
      rw [htext] at hreads
      obtain ⟨hlist, hcount, hlast⟩ := hreads
      refine ⟨fun _ => by rintro text ⟨⟩, fun _ => ListMatches.of_count ?_ ?_⟩
      · rw [hlist, hlast]
        exact hs.entries
      · rw [hcount, hlist]
        exact hs.count
  | some text =>
      rw [htext] at hreads
      obtain ⟨hlist, hcount, hlast⟩ := hreads
      constructor
      · rintro ⟨hentries, hcount', -⟩ text' ⟨⟩
        -- the count is that of this reading alone, so nothing was in the list before
        have hnil : s.programList = [] := by
          rw [hlist, hcount, List.length_append] at hcount'
          exact List.length_eq_zero_iff.mp (by omega)
        rw [hlist, hlast, hnil, List.nil_append, Option.getD_some] at hentries
        exact ⟨hnil, (fileEntries_eq_iff text).mp hentries⟩
      · intro hclean
        obtain ⟨hnil, hplain⟩ := hclean text rfl
        refine ListMatches.of_count ?_ ?_
        · rw [hlist, hlast, hnil, List.nil_append, Option.getD_some]
          exact (fileEntries_eq_iff text).mpr hplain
        · rw [hcount, hlist, hnil, List.nil_append]

theorem listMatches_start (file : Option Bytes) : ListMatches (ProgramState.start file) :=
  ListMatches.of_count rfl rfl

/-- For every history of the client: the list matches in every state exactly if every reading finds
the list empty and the file plain. -/
theorem listMatches_iff (file : Option Bytes) (events : List ListEvent) :
    AllSteps listStep (fun s e => ∀ t, listStep s e = some t → ListMatches t) events
        (ProgramState.start file) ↔
      AllSteps listStep ReadsClean events (ProgramState.start file) := by
  refine allSteps_next_iff (fun s e t hs h => listMatches_step_iff hs h) (fun s e => ?_)
    (listMatches_start file)
  cases e <;> exact ⟨_, rfl⟩

/-- The server hands out the list `a,b` and, at the next call home, the same list again. -/
def twoCallsHome : List ListEvent :=
  [.callHome [ch 'a', ch ',', ch 'b'] true true, .callHome [ch 'a', ch ',', ch 'b'] true true]

/-- After the second call home PROGRAM_LIST has four entries, and a process `a` sets bit 2 of a
list of two programs. -/
theorem listMatches_fails :
    ∃ s, run listStep twoCallsHome (ProgramState.start (some [])) = some s ∧
      s.programCount = 2 ∧ s.programList.length = 4 ∧
      (tallyProgramCount s.programList [ch 'a', ch '\n'] 1).getLsbD 2 = true ∧
      ¬ ListMatches s := by
  refine ⟨_, rfl, by decide, by decide, by decide, fun h => ?_⟩
  exact absurd h.count (by decide)

end Monitoring.Client
