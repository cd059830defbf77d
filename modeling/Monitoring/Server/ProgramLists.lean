import Monitoring.Lib.CText
import Monitoring.Lib.Table

/-!
# `Monitoring.Server.ProgramLists`: `current_prog_setup`

At its start the server reads the table `programs` once and makes a list of process names for either
operating system, under the bit positions 1 to `max_bit`. A program may have two names: the row then
is not the primary one, and the entry is both of them with a colon in between.

The rows of a bit position come in the order the database chooses. That order is an input
(`Selects`). All queries run, and the text fields are never NULL.
-/

set_option autoImplicit false

namespace Monitoring.Server

open Monitoring.Lib

/-- A row of the table `programs`. -/
structure ProgramRow where
  bitPos : Int
  programPname : Bytes
  programOS : Int
  primaryPname : Int
  secondaryPname : Bytes
deriving DecidableEq, Repr

/-- The two maps. -/
structure ProgramLists where
  windowsList : Table Int Bytes
  linuxList : Table Int Bytes

/-- The maps, and the strings that live across the rows of a bit position. -/
structure RowLoop where
  wpname : Bytes
  lpname : Bytes
  lists : ProgramLists

/-- One row of bit position `i`. -/
def rowPass (i : Int) (s : RowLoop) (row : ProgramRow) : RowLoop :=
  if row.programOS = 1 then
    let wpname :=
      if row.primaryPname = 1 then row.programPname
      else row.secondaryPname ++ [ch ':'] ++ row.programPname
    { s with
      wpname := wpname
      lists := { s.lists with windowsList := s.lists.windowsList.set i wpname } }
  else if row.programOS = 2 then
    let lpname :=
      if row.primaryPname = 1 then row.programPname
      -- `_lpname` has just been set to `row[3]`, but the sum is made of `_wpname`
      else s.wpname ++ [ch ':'] ++ row.programPname
    { s with
      lpname := lpname
      lists := { s.lists with linuxList := s.lists.linuxList.set i lpname } }
  else s

/-- The rows of bit position `i`, in the order they are returned. -/
def bitPass (select : Int → List ProgramRow) (lists : ProgramLists) (i : Int) : ProgramLists :=
  ((select i).foldl (rowPass i) ⟨[], [], lists⟩).lists

/-- The bit positions 1 to `maxBit`. -/
def bitPositions (maxBit : Int) : List Int :=
  (List.range maxBit.toNat).map fun (k : Nat) => (k : Int) + 1

/-- `SELECT MAX(bit_pos) FROM programs`; 0 for a table without rows, which sets nothing up. -/
def maxBit (programs : List ProgramRow) : Int :=
  ((programs.map ProgramRow.bitPos).max?).getD 0

/-- The first loop: a bit position gets an empty entry in both lists. -/
def emptyEntry (lists : ProgramLists) (j : Int) : ProgramLists :=
  ⟨lists.windowsList.insertNew j [], lists.linuxList.insertNew j []⟩

/-- `current_prog_setup`, with the rows that the `SELECT` for a bit position returns. -/
def currentProgSetup (programs : List ProgramRow) (select : Int → List ProgramRow)
    (lists : ProgramLists) : ProgramLists :=
  let positions := bitPositions (maxBit programs)
  positions.foldl (bitPass select) (positions.foldl emptyEntry lists)

/-- The `SELECT` for a bit position returns its rows in some order. -/
def Selects (programs : List ProgramRow) (select : Int → List ProgramRow) : Prop :=
  ∀ i, (select i).Perm (programs.filter fun row => row.bitPos = i)

/-- Before the call both maps are empty. -/
def ProgramLists.start : ProgramLists := ⟨∅, ∅⟩

end Monitoring.Server
