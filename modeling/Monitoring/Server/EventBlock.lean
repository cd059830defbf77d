import Monitoring.Lib.LineSearch
import Monitoring.Lib.MachineInt
import Monitoring.Lib.Table
import Monitoring.Lib.While

/-!
# `Monitoring.Server.EventBlock`: the decoder of the server

`parseEventBlock` is `parse_event_block` of `server/main.cpp`. It walks over the response of a
client and queues one EVENT row for each block it finds.

The decoder reads memory at computed offsets, so its input is a `Memory`: the response up to its
terminator, and whatever lies around it. Every index is computed as the C++ expression is: `int`
for `current_index`, `unsigned int` for the offsets derived from a header. A field that the code
terminates with `'\0'` ends there, also where that byte lies one past the array. The branch for a
response that starts with a zero-block frame terminates neither `tmp` nor `ts`; what follows
these arrays in memory is a parameter (`ParseEnv.afterTmp`, `ParseEnv.afterTs`). So is what the
array `timestamp` holds before it is filled (`ParseEnv.stale`), which shows when the filling loop
starts so near to `2 ^ 32` that its bound wraps.

The debugging output is left out. The pushes go to the queue in order, and `MAP_MNAME_STATUS`
may mark the machine as logged in.
-/

set_option autoImplicit false

namespace Monitoring.Server

open Monitoring.Lib

/-- `struct EVENT`. -/
structure EVENT where
  machine : Bytes
  timestamp : Int
  user : Bytes
  blockOffset : Nat
  data : Nat
  guestType : Nat
deriving DecidableEq, Repr

/-- What the pointer `data` points to: the bytes before the terminator, and the bytes outside
the array, by their offset. -/
structure Memory where
  text : Bytes
  outside : Int → Byte

/-- `data[i]`. -/
def Memory.get (m : Memory) (i : Int) : Byte :=
  if i < 0 ∨ (m.text.length : Int) < i then m.outside i else m.text.getD i.toNat 0

/-- `n` characters copied from `data[start]` on, with an index of type `int`. -/
def Memory.copy (m : Memory) (start : Int) (n : Nat) : Bytes :=
  (List.range n).map fun (j : Nat) => m.get (start + j)

/-- `n` characters copied from `data[start]` on, with an index of type `unsigned int`. -/
def Memory.copyU (m : Memory) (start : Int) (n : Nat) : Bytes :=
  (List.range n).map fun (j : Nat) => m.get (u32 (start + j))

/-- `strlen(data)`, as the `int` it is stored in. -/
def Memory.dlen (m : Memory) : Int := i32 (cstr m.text).length

/-- What a call of `parse_event_block` finds around it: the readings of `time(NULL)` in order,
the bytes behind the two unterminated arrays up to the next NUL, and the former content of
`timestamp`. -/
structure ParseEnv where
  now : Nat → Int
  afterTmp : Bytes
  afterTs : Bytes
  stale : Bytes

/-- What a call works on: `EVENTS_TO_UPLOAD`, `MAP_MNAME_STATUS`, and how often it has read the
clock. -/
structure ParseState where
  eventsToUpload : List EVENT
  mapMnameStatus : Table Bytes Int
  reads : Nat

/-- The account type: 1 for `^gx`, 2 for `^gp`, 0 otherwise. -/
def guestType (user : Bytes) : Nat :=
  -- `gx` is searched first, so a name with lines of both kinds counts as 1
  if searchLine [ch 'g', ch 'x'] user then 1
  else if searchLine [ch 'g', ch 'p'] user then 2
  else 0

/-- "Check timestamp, if its within last 60 seconds we can consider the machine logged in". -/
def checkTimestamp (env : ParseEnv) (data : Memory) (machine : Bytes) (l : Int)
    (st : ParseState) : ParseState :=
  { st with
    mapMnameStatus :=
      if u64 (env.now st.reads - 60) < l ∧ data.get 0 = ch '2' then
        st.mapMnameStatus.set machine 1
      else st.mapMnameStatus
    reads := st.reads + 1 }

/-- `EVENTS_TO_UPLOAD.push_back(e)`. -/
def ParseState.push (st : ParseState) (e : EVENT) : ParseState :=
  { st with eventsToUpload := st.eventsToUpload ++ [e] }

/-- The branch for `data[1] == '0'`: "No monitored programs currently running". -/
def parseZeroBlock (env : ParseEnv) (data : Memory) (machine : Bytes) (st : ParseState) :
    ParseState :=
  -- `tmp` has two elements and no terminator, so the stream reads on behind it
  let unameLength := streamHex (cstr [data.get 2, data.get 3] ++
    (if 0 ∈ [data.get 2, data.get 3] then [] else env.afterTmp))
  let user := cstr ((List.range unameLength).map fun (i : Nat) => data.get (u32 (i + 4)))
  let ts := (List.range 10).map fun (i : Nat) => data.get (u32 (4 + unameLength + i))
  -- nor has `ts`
  let l := u64 (atol (cstr ts ++ (if 0 ∈ ts then [] else env.afterTs)))
  let st := checkTimestamp env data machine l st
  st.push ⟨machine, l, user, 1, 0, guestType user⟩

/-- The `i`-th pass over the blocks of a frame. The block starts at `data[start]`. -/
def parseBlock (env : ParseEnv) (data : Memory) (machine user : Bytes) (l start : Int)
    (st : ParseState) (i : Nat) : ParseState :=
  let block := cstr (data.copy (start + 8 * i) 8)
  let e : EVENT := ⟨machine, l, user, i + 1, streamHex block, guestType user⟩
  let st := checkTimestamp env data machine l st
  -- "No need to add the second EVENT data block into the DB if data == 0"
  if e.data = 0 ∧ 2 ≤ e.blockOffset then st else st.push e

/-- The state of the decoding loop. -/
structure LoopState where
  currentIndex : Int
  st : ParseState

/-- One pass of the decoding loop: a single EVENT stream. -/
def parseFrame (env : ParseEnv) (data : Memory) (machine : Bytes) (s : LoopState) :
    LoopState :=
  let index := i32 (s.currentIndex + 1)
  let numBlocks := streamHex [data.get index]
  let usize := [data.get (u32 (1 + index + u32 (numBlocks * 8))),
    data.get (u32 (2 + index + u32 (numBlocks * 8)))]
  let ulen := streamHex (cstr usize)
  let ustart := u32 (1 + index + 2 + u32 (numBlocks * 8))
  let user := cstr (data.copyU ustart ulen)
  let tstart := u32 (1 + index + 2 + u32 (numBlocks * 8) + ulen)
  -- `y < (tstart + 10)` fails at once when the sum wraps
  let timestamp := if tstart < u32 (tstart + 10) then data.copyU tstart 10 else env.stale
  let l := u64 (atol (cstr timestamp))
  { currentIndex := i32 (u32 (tstart + 10))
    st := (List.range numBlocks).foldl
      (parseBlock env data machine user l (i32 (index + 1))) s.st }

/-- `num_blocks`, in the pass that starts at `current_index`. -/
def Memory.numBlocks (data : Memory) (currentIndex : Int) : Nat :=
  streamHex [data.get (i32 (currentIndex + 1))]

/-- `usize`, the two characters that hold the length of the user name. -/
def Memory.usize (data : Memory) (currentIndex : Int) : Bytes :=
  let index := i32 (currentIndex + 1)
  [data.get (u32 (1 + index + u32 (data.numBlocks currentIndex * 8))),
    data.get (u32 (2 + index + u32 (data.numBlocks currentIndex * 8)))]

/-- `ulen`. -/
def Memory.ulen (data : Memory) (currentIndex : Int) : Nat :=
  streamHex (cstr (data.usize currentIndex))

/-- `tstart`. -/
def Memory.tstart (data : Memory) (currentIndex : Int) : Int :=
  u32 (1 + i32 (currentIndex + 1) + 2 + u32 (data.numBlocks currentIndex * 8)
    + data.ulen currentIndex)

/-- `user`. -/
def Memory.userName (data : Memory) (currentIndex : Int) : Bytes :=
  cstr (data.copyU (u32 (1 + i32 (currentIndex + 1) + 2 + u32 (data.numBlocks currentIndex * 8)))
    (data.ulen currentIndex))

/-- `l`. -/
def Memory.stampValue (data : Memory) (env : ParseEnv) (currentIndex : Int) : Int :=
  let tstart := data.tstart currentIndex
  u64 (atol (cstr (if tstart < u32 (tstart + 10) then data.copyU tstart 10 else env.stale)))

/-- A pass in terms of the fields it reads. -/
theorem parseFrame_fields (env : ParseEnv) (data : Memory) (machine : Bytes) (s : LoopState) :
    parseFrame env data machine s =
      { currentIndex := i32 (u32 (data.tstart s.currentIndex + 10))
        st := (List.range (data.numBlocks s.currentIndex)).foldl
          (parseBlock env data machine (data.userName s.currentIndex)
            (data.stampValue env s.currentIndex) (i32 (i32 (s.currentIndex + 1) + 1))) s.st } := rfl

/-- The indices of the elements of `data` that the pass reads: the header, the name, the timestamp,
the blocks, and for each block the type of the response. -/
def Memory.frameReads (data : Memory) (currentIndex : Int) : List Int :=
  let index := i32 (currentIndex + 1)
  let blocks := u32 (data.numBlocks currentIndex * 8)
  let tstart := data.tstart currentIndex
  [index, u32 (1 + index + blocks), u32 (2 + index + blocks)]
    ++ ((List.range (data.ulen currentIndex)).map fun x : Nat =>
        u32 (u32 (1 + index + 2 + blocks) + x))
    ++ (if tstart < u32 (tstart + 10) then
        (List.range 10).map fun y : Nat => u32 (tstart + y) else [])
    ++ (List.range (data.numBlocks currentIndex)).flatMap fun i : Nat =>
        0 :: (List.range 8).map fun j : Nat => i32 (index + 1) + 8 * i + j

/-- "Set current_index to next EVENT in stream". -/
theorem parseFrame_currentIndex (env : ParseEnv) (data : Memory) (machine : Bytes)
    (s : LoopState) : (parseFrame env data machine s).currentIndex
      = i32 (u32 (data.tstart s.currentIndex + 10)) := rfl

/-- `parse_event_block`, for at most `fuel` passes of its loop. -/
def parseEventBlock (env : ParseEnv) (data : Memory) (machine : Bytes) (fuel : Nat)
    (st : ParseState) : Option ParseState :=
  if data.get 1 = ch '0' then some (parseZeroBlock env data machine st)
  else
    (whileFuel (fun s : LoopState => decide (s.currentIndex < data.dlen))
      (parseFrame env data machine) fuel ⟨0, st⟩).map LoopState.st

/-- The end of `handle_gather`: a response that starts with '2' is copied behind a terminator and
decoded. -/
def decodeResponse (env : ParseEnv) (outside : Int → Byte) (rBuffer machine : Bytes) (fuel : Nat)
    (st : ParseState) : Option ParseState :=
  if rBuffer.head? = some (ch '2') then parseEventBlock env ⟨rBuffer, outside⟩ machine fuel st
  else some st

end Monitoring.Server
