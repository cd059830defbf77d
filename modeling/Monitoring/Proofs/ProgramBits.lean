import Monitoring.Client.CallHome
import Monitoring.Proofs.Monitor
import Monitoring.Proofs.ProgramLists
import Monitoring.Proofs.Registry

/-!
# `Monitoring.Proofs.ProgramBits`: from the table `programs` to the bits of a frame

The server makes a list of the table, hands it to a client that calls home, the client writes it to
its masterlist file, reads it from there, and looks its entries up in what `ps` prints.
`program_bits` is about all of it: bit `p` of word `i` belongs to the bit position `32 * i + p + 1`
of the table. The NUL that a full read of 12 bytes stores behind its buffer is taken as harmless
(`Monitoring.Proofs.Readers` is about it).
-/

set_option autoImplicit false

namespace Monitoring

open Monitoring.Lib Monitoring.Client Monitoring.Server

section
variable {fields : List Bytes} {listing : Bytes} {k : Nat}

/-- The list that a client makes of the text it receives. -/
theorem receivedList_listText {names : List Bytes} {file list : Bytes} {chunks : List Bytes}
    (hne : names ≠ []) (hnul : ∀ name ∈ names, 0 ∉ name)
    (hchunks : chunks.flatten = listText names) (hread : ∀ chunk ∈ chunks, chunk ≠ [])
    (hlist : receivedList (callHomeOutput file chunks).text = some list) :
    list = [ch ','].intercalate names := by
  have hzero : 0 ∉ chunks.flatten := by
    rw [hchunks]
    intro h
    obtain ⟨name, hname, h⟩ := List.mem_flatMap.mp h
    rcases List.mem_cons.mp h with h | h
    · exact absurd h (by decide)
    · exact hnul name hname h
  have htext : (callHomeOutput file chunks).text = ch ',' :: [ch ','].intercalate names := by
    unfold callHomeOutput
    rw [readAll_text hread fun chunk hchunk h => hzero (List.mem_flatten_of_mem hchunk h),
      ← listText_eq names hne, ← hchunks]
    rfl
  rw [htext] at hlist
  exact (Option.some.inj hlist).symm

/-- The entry at a place is found exactly if a line ends in the field. -/
theorem detects_entries_iff (hplain : ∀ field ∈ fields, Version.linux.PlainField field) :
    Detects (fields.map Version.linux.entryOf) listing k ↔ ∃ field, fields[k]? = some field ∧
      field ≠ [] ∧ ∃ line ∈ rawLines listing, field ++ [ch '\n'] <:+ line := by
  unfold Detects
  rw [List.getElem?_map]
  cases hfield : fields[k]? with
  | none => simp
  | some field =>
      simp only [Option.map_some, Option.some.injEq, exists_eq_left', Version.entryOf]
      by_cases hblank : field = []
      · rw [if_pos hblank]
        exact iff_of_false (fun h => h.1 rfl) fun h => h.1 hblank
      · have hnewline := (hplain field (List.mem_of_getElem? hfield)).newline
        rw [if_neg hblank, ← infix_rawLines_iff hnewline]
        exact and_congr_left fun _ =>
          iff_of_true (List.append_ne_nil_of_left_ne_nil hblank _) hblank

end

section
variable {programs : List ProgramRow} {select : Int → List ProgramRow}

/-- The entries of the list are those of the bit positions from 1 on. -/
theorem programEntry_getElem? (hone : OneRowPerOs programs) {k : Nat} {field : Bytes}
    (hfield : field ≠ []) :
    ((bitPositions (maxBit programs)).map (programEntry programs 2))[k]? = some field ↔
      programEntry programs 2 ((k : Int) + 1) = field := by
  unfold bitPositions
  rw [List.map_map, List.getElem?_map]
  by_cases hk : k < (maxBit programs).toNat
  · rw [List.getElem?_range hk, Option.map_some, Option.some.injEq]
    rfl
  · rw [List.getElem?_eq_none (by rw [List.length_range]; omega)]
    refine iff_of_false (by rintro ⟨⟩) fun h => hfield ?_
    -- no row is at a higher position
    cases hrow : ownRow programs 2 ((k : Int) + 1) with
    | none =>
        rw [programEntry, hrow] at h
        exact h.symm
    | some row =>
        obtain ⟨hmem, hbit, -⟩ := (ownRow_eq_some_iff hone).mp hrow
        have hle := bitPos_le_maxBit hmem
        omega

end

/-- A table with one program of Linux. -/
def oneProgram : List ProgramRow := [⟨1, str "a", 2, 1, []⟩]

theorem plainField_oneProgram (i : Int) :
    Version.linux.PlainField (programEntry oneProgram 2 i) := by
  have hentry : programEntry oneProgram 2 i = [] ∨ programEntry oneProgram 2 i = str "a" := by
    unfold programEntry
    cases hrow : ownRow oneProgram 2 i with
    | none => exact Or.inl rfl
    | some row =>
        have hmem : row ∈ oneProgram := List.mem_of_find?_eq_some hrow
        rw [List.mem_singleton.mp hmem]
        exact Or.inr rfl
  rcases hentry with h | h <;> rw [h] <;>
    exact ⟨by decide, by decide, by decide, fun hversion => by cases hversion⟩

end Monitoring
