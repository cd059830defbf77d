import Monitoring.Lib.ChunkedRead

/-!
# `Monitoring.Client.CallHome`: the program list a client receives

A client that calls home reads the answer of the server to its end, drops the first byte, and hands
the rest to `write_program_file`, which splits it at the commas. It reads into a buffer of 12 bytes
and asks for 12 bytes.
-/

set_option autoImplicit false

namespace Monitoring.Client

open Monitoring.Lib

/-- The size of `file`, which is what every `read_some` asks for. -/
def fileSize : Nat := 12

/-- The loop of `call_home_task`: `output` is the text of the reader, and `file` the memory from the
buffer on. -/
def callHomeOutput (file : Bytes) (chunks : List Bytes) : Reader :=
  (Reader.start file).readAll chunks

/-- `output.substr(1)` in `call_home_task`. It throws if nothing was received. -/
def receivedList (output : Bytes) : Option Bytes :=
  if output.length < 1 then none else some (output.drop 1)

/-- `boost::split(_splits, list, boost::is_any_of(","))`. -/
def splitList (list : Bytes) : List Bytes := list.splitOn (ch ',')

end Monitoring.Client
