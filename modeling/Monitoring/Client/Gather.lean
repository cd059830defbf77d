import Monitoring.Client.Drain
import Monitoring.Client.Frame
import Monitoring.Client.Users

/-!
# `Monitoring.Client.Gather`: `gather_data`, the clock, and the requests of the server

`gather_data` is a loop without end. A cycle looks who is logged in, allocates one word for each
block of the program list, and then polls the processes of the local user until 59 seconds are
over, OR-ing what it finds into the words. It ends with an EVENT frame for EVENTS. While it runs,
`listen_thread` answers the server: with the frames in EVENTS, or, if there are none, with a frame
that `get_current_event` builds from the words as they stand.

The model is a step relation. `GatherPc` is the statement `gather_data` has reached, and
`gatherStep` executes it; the clock, the requests, and the call homes that change PROGRAM_COUNT
take place between any two statements. A request is one step: its operations on EVENTS are the
matter of `Monitoring.Client.Drain`.

Both builders take the timestamp from the clock at the moment they run. `responses` is what was
handed to the sockets: the frames of one answer after those of the other. There are two ghosts:
`built`, the frames that were ever built, and `edition`, which counts how often the words have
changed, by a new cycle or by a poll that sets a bit.

The array is freed at the end of the cycle, and CURRENT_EVENT_BLOCK still points to it. What is read
through that pointer, or behind the end of the array, is an input of the request (`outside`).
-/

set_option autoImplicit false

namespace Monitoring.Client

open Monitoring.Lib

/-- The arguments of a call of `build_event`: the time at which it reads the clock, the words that
were printed into `pdata`, and the user. `edition` is a ghost: the edition of the array, if the
words are the array as it stood, or `none` if they were not read from all of it. -/
structure BuiltFrame where
  clock : Int
  words : List UInt32
  user : Bytes
  edition : Option Nat
deriving DecidableEq, Repr

/-- What the call returns. -/
def BuiltFrame.bytes (b : BuiltFrame) : Bytes :=
  buildEventAt b.clock (printBlocks b.words) b.user

/-- The ten characters it packs for the timestamp. -/
def BuiltFrame.stamp (b : BuiltFrame) : Bytes :=
  (List.range 10).map fun i => (getRoundedTimestamp b.clock).getD i 0

/-- What CURRENT_EVENT_BLOCK points to: nothing, the array of the running cycle, or one that has
been freed. -/
inductive EventBlock
  | null
  | live
  | freed
deriving DecidableEq, Repr

/-- The statement of `gather_data` that is next, with the local variables it needs: `t` is the
start of the cycle, `line` the frame that was built. -/
inductive GatherPc
  | script
  | login
  | setup
  | start
  | test (t : Int)
  | mark (t : Int)
  | poll (t : Int) (j : Nat)
  | wait (t : Int)
  | asleep (t wakes : Int)
  | build
  | delete (line : Bytes)
  | store (line : Bytes)
  | logout
  | cleanup
deriving DecidableEq, Repr

/-- The globals of the client, and the array of the running cycle. `tmSec` is the field of the
static object that every `localtime` writes to. -/
structure GatherState where
  clock : Int
  tmSec : Int
  pc : GatherPc
  loggedIn : Bool
  currentUsers : List User
  eventSize : Int
  programCount : Int
  blocks : List UInt32
  edition : Nat
  currentEventBlock : EventBlock
  events : List Bytes
  responses : List (List Bytes)
  built : List BuiltFrame
deriving DecidableEq, Repr

/-- "if(pcount % EVENTSIZE != 0) block = (pcount / EVENTSIZE) + 1; else block = (pcount /
EVENTSIZE)". -/
def blockCount (pcount eventSize : Int) : Int :=
  if pcount.tmod eventSize ≠ 0 then pcount.tdiv eventSize + 1 else pcount.tdiv eventSize

/-! ### The cycle -/

/-- What a statement of `gather_data` learns from outside: the users `logged_in` finds, the
PROGRAM_COUNT `set_program_list` leaves, and the result of `tally_program_count`. -/
structure GatherInput where
  users : List User
  programCount : Int
  tally : UInt32
deriving DecidableEq, Repr

/-- The start of a cycle for a machine that is logged in. Without a program list it is read first;
then the words are allocated. A division by zero, or an array of negative length, ends the
process. -/
def GatherState.allocate (s : GatherState) (input : GatherInput) : Option GatherState :=
  let pcount := if s.programCount = 0 then input.programCount else s.programCount
  let block := blockCount pcount s.eventSize
  if s.eventSize = 0 ∨ block < 0 then none
  else
    some { s with
      pc := .start
      loggedIn := true
      programCount := pcount
      blocks := List.replicate block.toNat 0
      edition := s.edition + 1 }

/-- The frame the cycle ends with, if somebody is logged in locally. -/
def GatherState.finishedFrame (s : GatherState) : Option BuiltFrame :=
  let user := getCurrentLocalUser s.currentUsers
  if user.length > 0 then some ⟨s.clock, s.blocks, user, some s.edition⟩ else none

/-- The next statement of `gather_data`; `none` where it has to wait, or the process ends. -/
def gatherStep (input : GatherInput) (s : GatherState) : Option GatherState :=
  match s.pc with
  | .script => some { s with pc := .login, tmSec := tmSec s.clock }
  | .login =>
      -- `logged_in` appends; the last cycle has cleared `currentUsers`
      let users := s.currentUsers ++ input.users
      some { s with pc := if users.length > 0 then .setup else .logout, currentUsers := users }
  | .setup => s.allocate input
  | .start => some { s with pc := .test s.clock, tmSec := tmSec s.clock }
  | .test t => some { s with pc := if s.clock < t + 59 then .mark t else .build }
  | .mark t => some { s with pc := .poll t 0, tmSec := tmSec s.clock }
  | .poll t j =>
      if j < s.blocks.length then
        let blocks := s.blocks.modify j fun word => word ||| input.tally
        some { s with
          pc := .poll t (j + 1)
          blocks := blocks
          edition := if blocks = s.blocks then s.edition else s.edition + 1
          -- the assignment stands in the loop: a cycle without blocks publishes nothing
          currentEventBlock := .live }
      else some { s with pc := .wait t }
  -- `while(tm_struct1->tm_sec != 0)` with its `mSleep(1)`
  | .wait t => some { s with pc := if s.tmSec ≠ 0 then .asleep t (s.clock + 1) else .test t }
  | .asleep t wakes =>
      if wakes ≤ s.clock then some { s with pc := .wait t, tmSec := tmSec s.clock } else none
  | .build =>
      match s.finishedFrame with
      -- `EVENT` stays empty when nobody is logged in locally
      | none => some { s with pc := .delete [] }
      | some b =>
          some { s with
            pc := .delete b.bytes
            tmSec := tmSec s.clock
            built := s.built ++ [b] }
  | .delete line =>
      some { s with
        pc := .store line
        -- the pointer keeps its value
        currentEventBlock := if s.currentEventBlock = .live then .freed else s.currentEventBlock }
  | .store line =>
      some { s with
        pc := .cleanup
        -- the line was built at an earlier clock, and is pushed only now
        events := if line.length > 0 then s.events ++ [line] else s.events }
  | .logout => some { s with pc := .cleanup, loggedIn := false }
  | .cleanup => some { s with pc := .script, currentUsers := [] }

/-! ### Requests -/

/-- The words `get_current_event` prints. -/
def GatherState.currentWords (s : GatherState) (outside : Nat → UInt32) : List UInt32 :=
  (List.range (blockCount s.programCount s.eventSize).toNat).map fun i =>
    if s.currentEventBlock = .live then s.blocks.getD i (outside i) else outside i

/-- `get_current_event` reads the array of the running cycle, from one end to the other. -/
def GatherState.ReadsArray (s : GatherState) : Prop :=
  s.currentEventBlock = .live ∧ (blockCount s.programCount s.eventSize).toNat = s.blocks.length

instance (s : GatherState) : Decidable s.ReadsArray :=
  inferInstanceAs (Decidable (_ ∧ _))

/-- The frame `get_current_event` builds, if it builds one. -/
def GatherState.currentFrame (s : GatherState) (outside : Nat → UInt32) : Option BuiltFrame :=
  if s.currentEventBlock = .null then none
  else
    some ⟨s.clock, s.currentWords outside, getCurrentLocalUser s.currentUsers,
      if s.ReadsArray then some s.edition else none⟩

/-- The frame that is built for a request: "Send current EVENT", if there is no other. -/
def GatherState.requestFrame (s : GatherState) (outside : Nat → UInt32) : Option BuiltFrame :=
  if s.loggedIn ∧ s.events = [] then s.currentFrame outside else none

/-- A '2' request and the answer of `listen_thread`. -/
def requestStep (outcomes : Nat → WriteOutcome) (outside : Nat → UInt32) (s : GatherState) :
    Option GatherState :=
  let frame := s.requestFrame outside
  if frame.isSome ∧ s.eventSize = 0 then none
  else
    (answerRequest .linux ⟨s.loggedIn, (frame.map BuiltFrame.bytes).getD [], outcomes⟩ s.events
      none).map fun q =>
        { s with
          tmSec := if frame.isSome then tmSec s.clock else s.tmSec
          events := q.events
          responses := if s.loggedIn then s.responses ++ [q.wire.map Sent.event] else s.responses
          built := s.built ++ frame.toList }

/-- What a request changes: the object of `localtime`, if it builds a frame, and the frames. -/
theorem requestStep_eq {outcomes : Nat → WriteOutcome} {outside : Nat → UInt32}
    {s t : GatherState} (h : requestStep outcomes outside s = some t) :
    ∃ q, answerRequest .linux ⟨s.loggedIn,
        ((s.requestFrame outside).map BuiltFrame.bytes).getD [], outcomes⟩ s.events none = some q ∧
      t = { s with
        tmSec := if (s.requestFrame outside).isSome then Client.tmSec s.clock else s.tmSec
        events := q.events
        responses := if s.loggedIn then s.responses ++ [q.wire.map Sent.event] else s.responses
        built := s.built ++ (s.requestFrame outside).toList } := by
  simp only [requestStep] at h
  split at h
  · cases h
  · obtain ⟨q, hq, rfl⟩ := Option.map_eq_some_iff.mp h
    exact ⟨q, hq, rfl⟩

/-! ### Interleavings -/

/-- What can happen next: time goes by, `gather_data` executes a statement, the server asks, or a
call home changes PROGRAM_COUNT. -/
inductive ClientEvent
  | elapse (seconds : Nat)
  | gather (input : GatherInput)
  | request (outcomes : Nat → WriteOutcome) (outside : Nat → UInt32)
  | callHome (programCount : Int)

/-- The state after an event. -/
def clientStep (s : GatherState) : ClientEvent → Option GatherState
  | .elapse seconds => some { s with clock := s.clock + seconds }
  | .gather input => gatherStep input s
  | .request outcomes outside => requestStep outcomes outside s
  | .callHome programCount => some { s with programCount := programCount }

/-- The event is a statement that calls `localtime`. -/
def GatherState.callsLocaltime (s : GatherState) : ClientEvent → Bool
  | .gather _ =>
      match s.pc with
      | .script | .start | .mark _ | .asleep _ _ => true
      | .build => s.finishedFrame.isSome
      | _ => false
  | .request _ outside => (s.requestFrame outside).isSome
  | .elapse _ | .callHome _ => false

/-- The client has just started. -/
def GatherState.begin (clock eventSize programCount : Int) : GatherState where
  clock := clock
  tmSec := 0
  pc := .script
  loggedIn := false
  currentUsers := []
  eventSize := eventSize
  programCount := programCount
  blocks := []
  edition := 0
  currentEventBlock := .null
  events := []
  responses := []
  built := []

end Monitoring.Client
