import Monitoring.Lib.ChunkedRead
import Monitoring.Lib.Lines

/-!
# `Monitoring.Client.RunningProc`: `linux_get_running_proc`

The function runs `ps -u` for a user and returns what it prints. The first of its two loops reads
into `command`, the array that holds the text of the command. It asks for `sizeof(command)` bytes,
which is the size of a pointer (8 on a 64-bit machine), and not that of the array. That loop reads
to the end, so the second one, which has a buffer of its own, finds nothing.
-/

set_option autoImplicit false

namespace Monitoring.Client

open Monitoring.Lib

/-- The text of the command. -/
def psCommand (currentUser : Bytes) : Bytes := str "ps -u " ++ currentUser

/-- The size of `command`. -/
def commandSize (currentUser : Bytes) : Nat := (psCommand currentUser).length + 1

/-- What a call of `fgets` asks for: one byte of `sizeof(command)` is for the NUL. -/
def commandRoom : Nat := 8 - 1

/-- `linux_get_running_proc`: `result` is the text of the reader, and `memory` the memory from
`command` on. -/
def linuxGetRunningProc (memory currentUser output : Bytes) : Reader :=
  -- `strcpy(command, cmd.c_str())`
  ((Reader.start memory).store (psCommand currentUser)).readAll (fgetsPieces commandRoom output)

/-- The function returns what the command prints. -/
theorem linuxGetRunningProc_text {memory currentUser output : Bytes} (hnul : 0 ∉ output) :
    (linuxGetRunningProc memory currentUser output).text = output := by
  have hflatten := flatten_fgetsPieces commandRoom output
  have hzero : ∀ piece ∈ fgetsPieces commandRoom output, 0 ∉ piece := fun piece hp h0 =>
    hnul (hflatten ▸ List.mem_flatten_of_mem hp h0)
  exact (readAll_text (fun _ hp => ne_nil_of_mem_fgetsFrom hp) hzero).trans hflatten

end Monitoring.Client
