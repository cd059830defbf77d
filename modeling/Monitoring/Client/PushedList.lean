import Monitoring.Client.WindowsList

/-!
# `Monitoring.Client.PushedList`: a program list that the server pushes

Besides the list that a call home returns, `listen_thread` takes one that comes with the flag '1'.
This code splits at colons, leaves out blank fields, and writes the masterlist file anew. It reads
nothing back.
-/

set_option autoImplicit false

namespace Monitoring.Client

open Monitoring.Lib

/-- What the file system lets the two programs do with the masterlist file, if it is there. -/
structure FileAccess where
  canWrite : Bool
  canRead : Bool
  canRemove : Bool
  canCreate : Bool
deriving DecidableEq, Repr

/-- The size of `tmp`. -/
def tmpSize : Nat := 4096

/-- The text `listen_thread` writes: a line for every field that is not blank. -/
def pushedText (s : Bytes) : Bytes :=
  ((s.splitOn (ch ':')).filter fun field => field ≠ []).flatMap fun field => field ++ [ch '\n']

/-- What is stored of a text that is written to a file stream. -/
def Version.stored : Version → Bytes → Bytes
  | .linux, text => text
  | .windows, text => textMode text

/-- The branch of `listen_thread` for the flag '1': `std::remove`, and an `ofstream` that creates
the file or empties it. -/
def Version.listenProgramList (v : Version) (message : Bytes) (access : FileAccess)
    (s : ProgramState) : ProgramState :=
  -- `tmp.data()` and `substr(1)`
  let list := (cstr (message.take tmpSize)).drop 1
  { s with
    file :=
      if access.canCreate then some (v.stored (pushedText list))
      else if access.canRemove then none
      else s.file }

end Monitoring.Client
