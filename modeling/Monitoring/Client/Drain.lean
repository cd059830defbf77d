import Monitoring.Lib.CText
import Monitoring.Lib.Run
import Monitoring.Lib.SortUnique
import Monitoring.Lib.While

/-!
# `Monitoring.Client.Drain`: how `listen_thread` answers a '2' request

A client that is logged in sorts its list EVENTS, drops the duplicates, and then pops and writes
one frame after the other. `answerRequest` is that branch of `listen_thread`, in both versions:

* `linux_client` ends with `EVENTS.clear()` and takes a `boost::mutex` that is local to the
  branch, so it excludes nobody;
* `windows_client` first appends the lines of the file EVENT_FILE, and truncates it.

A client that is not logged in writes an '8' and keeps EVENTS. What a socket write reports is an
input (`WriteOutcome`): the code adds up the byte counts and never looks at the error code.

The second half is the drain of the Linux client in single operations on EVENTS, so that
`gather_data` can push between any two of them. `Pc` is the place `listen_thread` has reached.
-/

set_option autoImplicit false

namespace Monitoring.Client

open Monitoring.Lib

/-- What a `boost::asio::write` reports: `bytes_transferred` and the error code. -/
structure WriteOutcome where
  sent : Nat
  error : Int
deriving DecidableEq, Repr

/-- A write on the socket: the string it was made for, the bytes it was handed, and its
outcome. -/
structure Sent where
  line : Bytes
  event : Bytes
  outcome : WriteOutcome
deriving DecidableEq, Repr

/-- EVENTS, the file EVENT_FILE (`none` when there is none), and the writes on the connection. -/
structure Outbox where
  events : List Bytes
  eventFile : Option Bytes
  wire : List Sent
deriving DecidableEq, Repr

/-- The two programs. -/
inductive Version
  | linux
  | windows
deriving DecidableEq, Repr

/-- `event.insert(event.end(), line.c_str(), end)`, the write, `event.clear()`: the string goes
out up to its first NUL. -/
def Outbox.write (p : Outbox) (line : Bytes) (outcome : WriteOutcome) : Outbox :=
  { p with wire := p.wire ++ [⟨line, cstr line, outcome⟩] }

/-- The lines `getline` delivers, without the blank ones. -/
def storedLines (text : Bytes) : List Bytes :=
  (text.splitOn (ch '\n')).filter fun wline => decide (0 < wline.length)

/-- "Read in stored EVENTS then clear the file". -/
def Outbox.loadStored (p : Outbox) : Outbox :=
  match p.eventFile with
  | none => p
  | some text => { p with events := p.events ++ storedLines text, eventFile := some [] }

/-- One pass of `while(!EVENTS.empty())`. The outcomes are numbered by the write calls. -/
def drainPass (outcomes : Nat → WriteOutcome) (p : Outbox) : Outbox :=
  let line := p.events.getLastD []
  -- popped before the write, and the outcome is not looked at
  let p := { p with events := p.events.dropLast }
  if 0 < line.length then p.write line (outcomes p.wire.length) else p

/-- `while(!EVENTS.empty())`. -/
def drain (outcomes : Nat → WriteOutcome) (p : Outbox) : Option Outbox :=
  whileFuel (fun q => !q.events.isEmpty) (drainPass outcomes) p.events.length p

/-- What a request finds: LOGGED_IN, the string `get_current_event()` would return, and the
outcomes of the writes that answer it. -/
structure Request where
  loggedIn : Bool
  current : Bytes
  outcomes : Nat → WriteOutcome

/-- A new connection of a client that is logged in. -/
def Outbox.accept (v : Version) (events : List Bytes) (eventFile : Option Bytes) : Outbox :=
  match v with
  | .linux => ⟨events, eventFile, []⟩
  | .windows => Outbox.loadStored ⟨events, eventFile, []⟩

/-- What follows the loop. -/
def Outbox.finish (v : Version) (p : Outbox) : Outbox :=
  match v with
  | .linux => { p with events := [] }
  | .windows => p

/-- The branch of `listen_thread` for a '2' request. -/
def answerRequest (v : Version) (req : Request) (events : List Bytes)
    (eventFile : Option Bytes) : Option Outbox :=
  if req.loggedIn then
    let p := Outbox.accept v events eventFile
    -- "Remove any exact duplicate EVENTS"
    let p := { p with events := sortUnique (· ≤ ·) p.events }
    -- "Send current EVENT"
    let p := if p.events.isEmpty then p.write req.current (req.outcomes 0) else p
    (drain req.outcomes p).map (Outbox.finish v)
  -- nobody is logged in: EVENTS and EVENT_FILE wait
  else some (Outbox.write ⟨events, eventFile, []⟩ [ch '8'] (req.outcomes 0))

/-! ### Single operations on EVENTS -/

/-- Where `listen_thread` is, and the value of `line` where it needs it. -/
inductive Pc
  | idle
  | sort
  | unique
  | testEmpty
  | current
  | loopTest
  | back
  | popBack (line : Bytes)
  | write (line : Bytes)
  | clear
deriving DecidableEq, Repr

/-- A frame that `gather_data` has finished. `build_event` makes no other; see
`buildEvent_nul`. -/
abbrev GatheredFrame := { f : Bytes // 0 ∉ f }

/-- The shared state. `pushed` is a ghost: every frame `gather_data` ever pushed. -/
structure Shared where
  pc : Pc
  box : Outbox
  pushed : List Bytes
deriving DecidableEq, Repr

/-- The operations that interleave: `EVENTS.push_back` of a finished frame by `gather_data`, and
the next operation of `listen_thread`. The latter comes with the outcome, if it is a write, and
with what `get_current_event()` returns, if it is that call. -/
inductive Op
  | push (frame : GatheredFrame)
  | listen (outcome : WriteOutcome) (current : Bytes)

/-- The next operation of `listen_thread`, while the client is logged in. A new request finds a
new connection. -/
def listenStep (outcome : WriteOutcome) (current : Bytes) (s : Shared) : Shared :=
  match s.pc with
  | .idle => { s with pc := .sort }
  | .sort =>
      { s with pc := .unique, box := { s.box with events := s.box.events.insertionSort (· ≤ ·) } }
  | .unique =>
      { s with pc := .testEmpty, box := { s.box with events := unique s.box.events } }
  | .testEmpty => { s with pc := if s.box.events.isEmpty then .current else .loopTest }
  | .current => { s with pc := .loopTest, box := s.box.write current outcome }
  | .loopTest => { s with pc := if s.box.events.isEmpty then .clear else .back }
  | .back => { s with pc := .popBack (s.box.events.getLastD []) }
  | .popBack line =>
      { s with
        pc := if 0 < line.length then .write line else .loopTest
        box := { s.box with events := s.box.events.dropLast } }
  | .write line => { s with pc := .loopTest, box := s.box.write line outcome }
  | .clear => { s with pc := .idle, box := { s.box with events := [] } }

/-- One operation of either thread. The mutex of the drain is a local object, so nothing is ever
blocked. -/
def sharedStep (s : Shared) : Op → Option Shared
  | .push f =>
      some { s with
        box := { s.box with events := s.box.events ++ [f.1] }
        pushed := s.pushed ++ [f.1] }
  | .listen outcome current => some (listenStep outcome current s)

/-- Before anything happened. -/
def Shared.start : Shared := ⟨.idle, ⟨[], none, []⟩, []⟩

end Monitoring.Client
