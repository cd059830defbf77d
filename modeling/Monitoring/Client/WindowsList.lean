import Mathlib.Data.List.Basic
import Monitoring.Client.Drain
import Monitoring.Client.ProgramList
import Monitoring.Lib.LineSearch

/-!
# `Monitoring.Client.WindowsList`: the list of monitored programs of the Windows client

The Windows client keeps the same masterlist and the same PROGRAM_LIST as the Linux client of
`Monitoring.Client.ProgramList`, with other code. It writes the names with newlines between them,
and a text stream of Windows stores a newline as two bytes. It clears PROGRAM_LIST before it reads
the file. And it looks for a program in a snapshot of the processes, by the name with `.exe`
appended.

Its tally counts three things: `index`, the place in PROGRAM_LIST; `cline`, the line of the file;
and `bitPosition`, which moves on only where the entry is not blank.
-/

set_option autoImplicit false

namespace Monitoring.Client

open Monitoring.Lib

/-! ### The file -/

/-- What a text stream stores of the text written to it. -/
def textMode (text : Bytes) : Bytes :=
  text.flatMap fun c => if c = ch '\n' then [ch '\r', ch '\n'] else [c]

/-- Control-Z, which ends a text file for a stream that reads it. -/
def controlZ : Byte := 26

/-- What a text stream delivers of the bytes that are stored. -/
def readTextMode : Bytes → Bytes
  | [] => []
  | [c] => if c = controlZ then [] else [c]
  | c :: d :: rest =>
      if c = controlZ then []
      else if c = ch '\r' ∧ d = ch '\n' then ch '\n' :: readTextMode rest
      else c :: readTextMode (d :: rest)

/-- `win_set_program_list`. Each `getline` delivers what is in front of the next newline, and the
last one what is behind all of them. -/
def winSetProgramList (canRead : Bool) (s : ProgramState) : Option ProgramState :=
  if s.pfMutex then none
  else
    -- "testing a fix for double length list"
    let s := { s with programList := [] }
    match s.file with
    | none => some s
    | some text =>
        if canRead then
          let lines := (readTextMode text).splitOn (ch '\n')
          some { s with
            programList := lines
            programCount := lines.length
            lastRead := some text }
        else some s

/-- The text `write_program_file` writes on Windows: no newline behind the last field. -/
def winProgramText (list : Bytes) : Bytes := [ch '\n'].intercalate (list.splitOn (ch ','))

/-- `write_program_file` on Windows. -/
def winWriteProgramFile (list : Bytes) (canWrite canRead : Bool) (s : ProgramState) :
    Option ProgramState :=
  match s.file with
  | none => winSetProgramList canRead s
  | some old =>
      if canWrite then
        if s.pfMutex then none
        else
          winSetProgramList canRead
            { s with file := some (overwrite old (textMode (winProgramText list))) }
      else winSetProgramList canRead s

/-- `write_program_file` of either program. -/
def Version.writeProgramFile : Version → Bytes → Bool → Bool → ProgramState → Option ProgramState
  | .linux => Client.writeProgramFile
  | .windows => winWriteProgramFile

/-! ### The tally -/

/-- `boost::iequals`. -/
def iequals (a b : Bytes) : Bool := a.map lower = b.map lower

/-- `process + ".exe"`. -/
def exeName (process : Bytes) : Bytes := process ++ [ch '.', ch 'e', ch 'x', ch 'e']

/-- `win_find_running_process`, on the names in the snapshot. There are none if no snapshot could be
taken. -/
def winFindRunningProcess (snapshot : List Bytes) (process : Bytes) : Bool :=
  match snapshot with
  | [] => false
  -- the first name is compared with `==`, the others with `iequals`
  | first :: rest =>
      if first = exeName process then true else rest.any fun s => iequals s (exeName process)

/-- The loop of `tally_program_count`, for at most `n` passes. -/
def winTallyFrom (programList : List Bytes) (snapshot : List Bytes) (block : Nat) :
    Nat → Nat → Nat → Nat → BitVec 32 → BitVec 32
  | 0, _, _, _, currentProgs => currentProgs
  | n + 1, index, cline, bitPosition, currentProgs =>
      match programList[index]? with
      | none => currentProgs
      | some entry =>
          if (block - 1) * 32 ≤ cline ∧ cline ≤ block * 32 ∧ entry ≠ [] then
            winTallyFrom programList snapshot block n (index + 1) (cline + 1) (bitPosition + 1)
              (if winFindRunningProcess snapshot entry then
                currentProgs ||| BitVec.twoPow 32 bitPosition
              else currentProgs)
          else
            -- a blank entry holds no bit
            winTallyFrom programList snapshot block n (index + 1) (cline + 1) bitPosition
              currentProgs

/-- `tally_program_count` on Windows, for a block number from 1 on. The processes are those of one
snapshot. -/
def winTallyProgramCount (programList snapshot : List Bytes) (block : Nat) : BitVec 32 :=
  winTallyFrom programList snapshot block 32 ((block - 1) * 32) ((block - 1) * 32 + 1) 0 0

end Monitoring.Client
