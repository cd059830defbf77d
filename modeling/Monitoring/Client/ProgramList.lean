import Mathlib.Data.List.Infix
import Monitoring.Lib.Lines
import Monitoring.Lib.MachineInt
import Monitoring.Lib.Run

/-!
# `Monitoring.Client.ProgramList`: the list of monitored programs of the Linux client

The server sends the list as a text with commas. `write_program_file` writes it over the
masterlist file, one name per line, and `set_program_list` reads that file into the vector
PROGRAM_LIST and sets PROGRAM_COUNT. An entry keeps its newline; an empty line becomes an empty
entry, which only holds its bit position. `tally_program_count` looks every entry of a block up in
the process listing and sets the bit of those it finds.

Both functions use `pf_mutex`. Where `set_program_list` cannot open the file it returns without
unlocking it, so `pfMutex` is a field of the state: a call that has to wait for a mutex that a
finished call holds never returns (`none`).

`lastRead` is a ghost: the contents of the file at the last reading.
-/

set_option autoImplicit false

namespace Monitoring.Client

open Monitoring.Lib

/-- The globals, and the masterlist file P_FILE (`none` while it does not exist). -/
structure ProgramState where
  file : Option Bytes
  programList : List Bytes
  programCount : Nat
  pfMutex : Bool
  lastRead : Option Bytes
deriving DecidableEq, Repr

/-- What `getline` returned, as an entry: the C string if it read more than one byte, and the
empty string if it read one. -/
def lineEntry (line : Bytes) : Bytes := if 1 < line.length then cstr line else []

/-- The entries the loop of `linux_set_program_list` pushes. -/
def fileEntries (text : Bytes) : List Bytes := (rawLines text).map lineEntry

/-- `linux_set_program_list`. `canRead` says whether `fopen` succeeds on an existing file. -/
def linuxSetProgramList (canRead : Bool) (s : ProgramState) : Option ProgramState :=
  if s.pfMutex then none
  else
    match s.file with
    -- `return` without `pf_mutex.unlock()`
    | none => some { s with pfMutex := true }
    | some text =>
        if canRead then
          some { s with
            -- `push_back` behind what is there; the Windows version clears the list first
            programList := s.programList ++ fileEntries text
            programCount := (fileEntries text).length
            lastRead := some text }
        else some { s with pfMutex := true }

/-- The text `write_program_file` writes: every field with a newline. -/
def programText (list : Bytes) : Bytes :=
  (list.splitOn (ch ',')).flatMap fun field => field ++ [ch '\n']

/-- Writing at the start of a file that is not truncated. -/
def overwrite (old new : Bytes) : Bytes := new ++ old.drop new.length

/-- `write_program_file`. `canWrite` says whether the `fstream` opens on an existing file. -/
def writeProgramFile (list : Bytes) (canWrite canRead : Bool) (s : ProgramState) :
    Option ProgramState :=
  match s.file with
  -- the stream opens no file that does not exist
  | none => linuxSetProgramList canRead s
  | some old =>
      if canWrite then
        if s.pfMutex then none
        else linuxSetProgramList canRead { s with file := some (overwrite old (programText list)) }
      else linuxSetProgramList canRead s

/-- The call in `gather_data`: "If the pcount is 0 ... then force it being set". -/
def gatherSetProgramList (canRead : Bool) (s : ProgramState) : Option ProgramState :=
  if s.programCount = 0 then linuxSetProgramList canRead s else some s

/-! ### The tally -/

/-- `1 << index`. From 32 on this is undefined in C++; the shift instruction of the machine takes
the count modulo 32. -/
def shiftOne (index : Nat) : BitVec 32 := BitVec.twoPow 32 (index % 32)

/-- The loop of `tally_program_count` from `index` on, for at most `n` passes. -/
def tallyFrom (programList : List Bytes) (ptree : Bytes) : Nat → Nat → BitVec 32 → BitVec 32
  | 0, _, currentProgs => currentProgs
  | n + 1, index, currentProgs =>
      match programList[index]? with
      -- the list ends inside the block
      | none => currentProgs
      | some entry =>
          tallyFrom programList ptree n (index + 1)
            (if entry ≠ [] ∧ entry <:+: ptree then currentProgs ||| shiftOne index
              else currentProgs)

/-- `tally_program_count`, for a block number from 1 on. -/
def tallyProgramCount (programList : List Bytes) (ptree : Bytes) (block : Nat) : BitVec 32 :=
  tallyFrom programList ptree 32 ((block - 1) * 32) 0

/-- The counts of the shifts the loop executes. -/
def tallyShifts (programList : List Bytes) (ptree : Bytes) : Nat → Nat → List Nat
  | 0, _ => []
  | n + 1, index =>
      match programList[index]? with
      | none => []
      | some entry =>
          -- `1 << index`, with the place in the whole list
          if entry ≠ [] ∧ entry <:+: ptree then
            index :: tallyShifts programList ptree n (index + 1)
          else tallyShifts programList ptree n (index + 1)

/-- The places at which the loop of `tally_program_count` looks, from `index` on. Its bounds are of
type `int`, and `index` is compared with `size()` as an unsigned number. -/
def tallyPlacesFrom (size : Nat) (stop : Int) : Nat → Int → List Nat
  | 0, _ => []
  | n + 1, index =>
      if index < stop then
        -- a negative `int` becomes a number above every size
        if 0 ≤ index ∧ index < size then
          index.toNat :: tallyPlacesFrom size stop n (index + 1)
        else []
      else []

/-- The places at which `tally_program_count` looks, in a list of this size. -/
def tallyPlaces (size : Nat) (block : Int) : List Nat :=
  tallyPlacesFrom size (i32 (block * 32)) 32 (i32 ((block - 1) * 32))

/-! ### Histories -/

/-- What can happen to the list: the file is changed by someone else, `gather_data` starts a
cycle, or a call home returns a list. -/
inductive ListEvent
  | edit (file : Option Bytes)
  | gather (canRead : Bool)
  | callHome (list : Bytes) (canWrite canRead : Bool)
deriving DecidableEq, Repr

/-- The state after an event. A call that never returns leaves it unchanged. -/
def listStep (s : ProgramState) : ListEvent → Option ProgramState
  | .edit file => some { s with file := file }
  | .gather canRead => some ((gatherSetProgramList canRead s).getD s)
  | .callHome list canWrite canRead => some ((writeProgramFile list canWrite canRead s).getD s)

/-- The client has just started. -/
def ProgramState.start (file : Option Bytes) : ProgramState := ⟨file, [], 0, false, none⟩

end Monitoring.Client
