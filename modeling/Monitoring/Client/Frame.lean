import Monitoring.Lib.CText
import Monitoring.Lib.MachineInt

/-!
# `Monitoring.Client.Frame`: the EVENT frame a client packs

`buildEvent` is `build_event` of `linux_client/client.cpp`. It lays out

    '2'  blocks  pdata  length  user  timestamp

with one decimal character for the number of 32-bit blocks, two hexadecimal characters for the
length of the user name and ten characters for the rounded clock. The C++ function reads the
clock itself through `get_rounded_timestamp`; here that text is the first argument, and
`buildEventAt` closes the loop.

`Frame` is the shape a well-formed frame has: at most nine blocks, a user name of at most 255
bytes without NUL, a timestamp of ten digits. `Frame.bytes` is what `buildEvent` packs for it.
-/

set_option autoImplicit false

namespace Monitoring.Client

open Monitoring.Lib

/-- `localtime(&clock)->tm_sec`, for a zone whose offset is a whole number of minutes. -/
def tmSec (clock : Int) : Int := clock % 60

/-- `get_rounded_timestamp`, at the given `time(NULL)`. -/
def getRoundedTimestamp (clock : Int) : Bytes := printDec (i32 (i32 clock - tmSec clock))

/-- The length field of a user name: `%X`, with a `0` in front when it has one digit. -/
def packUserLength (user : Bytes) : Bytes :=
  let buffer := printBase 16 (u32 user.length).toNat
  if user.length < 16 then [ch '0', buffer.getD 0 0] else [buffer.getD 0 0, buffer.getD 1 0]

/-- `build_event`; `tstamp` is what `get_rounded_timestamp()` returns in it. -/
def buildEvent (tstamp pdata user : Bytes) : Bytes :=
  -- `buffer[0]`: of a count above nine only the first digit is packed
  [ch '2', (printDec ((i32 pdata.length).tdiv 8)).getD 0 0] ++ pdata ++ packUserLength user
    ++ user ++ (List.range 10).map fun i => tstamp.getD i 0

/-- `build_event` at the given `time(NULL)`. -/
def buildEventAt (clock : Int) (pdata user : Bytes) : Bytes :=
  buildEvent (getRoundedTimestamp clock) pdata user

/-- The program data of a frame: `%08X` of every block. -/
def printBlocks (words : List UInt32) : Bytes := words.flatMap printHex8

/-- A well-formed frame. -/
structure Frame where
  words : List UInt32
  user : Bytes
  stamp : Bytes
  words_le : words.length ≤ 9
  user_le : user.length ≤ 255
  user_nul : 0 ∉ user
  stamp_length : stamp.length = 10
  stamp_digits : ∀ c ∈ stamp, IsDigit 10 c

/-- The bytes `build_event` packs for the frame. -/
def Frame.bytes (f : Frame) : Bytes := buildEvent f.stamp (printBlocks f.words) f.user

/-- The bytes of the frames of one response, one after the other. -/
def concatFrames (fs : List Frame) : Bytes := fs.flatMap Frame.bytes

end Monitoring.Client
