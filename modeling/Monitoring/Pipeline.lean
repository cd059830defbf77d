import Monitoring.Client.Gather
import Monitoring.Server.EventStore
import Monitoring.Server.Receive
import Monitoring.Server.Registry

/-!
# `Monitoring.Pipeline`: from the polls of the clients to the table `event`

All clients, the server and the database in one system. A client is the state machine of
`Monitoring.Client.Gather`. `handle_gather` of the server asks a client, whose answer arrives in
chunks, and decodes it; the rows come to EVENTS_TO_UPLOAD one after the other, whenever
`event_mutex` is free, and `upload_task` writes them to the tables, statement by statement.

An exchange between `handle_gather` and `listen_thread` is one step: the request, the whole drain of
EVENTS and the decoding. So no frame is pushed to EVENTS in the middle of it. Such a push can lose a
frame though no answer is lost; that is left out here, and is the matter of
`Monitoring.Proofs.DrainInterleaving`. A read of the server returns at most 4096 bytes, and the NUL
that a full one stores behind `response` is taken as harmless (`Monitoring.Proofs.Readers` is about
it).

A request that a client answers on its own is one whose answer does not come to the server. The rows
that a `handle_gather` has decoded and not pushed yet are in `decoded`; in which order several of
these threads push is left open.

`stored` is a ghost: the frames that `gather_data` has pushed to EVENTS, with the name of the
machine.
-/

set_option autoImplicit false

namespace Monitoring

open Monitoring.Lib Monitoring.Client Monitoring.Server

/-- The clients by their names; the tables of the server, where EVENTS_TO_UPLOAD is left empty; the
rows that are about to be queued; `upload_task` with the queue and the database; and the ghost. -/
structure Pipeline where
  clients : Bytes → GatherState
  tables : Tables
  decoded : List EVENT
  uploader : Uploader
  stored : List (Bytes × Bytes)

/-- What an exchange meets: the outcomes of the writes and what the client reads outside of its
array; how the answer is cut on its way, the buffer it is read into, and the surroundings of the
decoder. -/
structure Exchange where
  outcomes : Nat → WriteOutcome
  outside : Nat → UInt32
  chunks : List Bytes
  response : Bytes
  env : ParseEnv
  memory : Int → Byte
  fuel : Nat

/-- A client takes a step, and its answer is lost if it is a request; a call home is handled; the
server asks a client, or gets no answer from it; a decoded row is queued; or the uploader takes a
step. -/
inductive PipelineAction
  | client (machine : Bytes) (e : ClientEvent)
  | listen (call : ListenCall) (fuel : Nat)
  | exchange (machine : Bytes) (x : Exchange)
  | fails (machine : Bytes) (outcome : GatherOutcome)
  | queue (i : Nat)
  | upload (act : UploaderAction)

/-- The answer of a client to a '2' request, with its writes. -/
def clientAnswer (s : GatherState) (x : Exchange) : Option Outbox :=
  answerRequest .linux
    ⟨s.loggedIn, ((s.requestFrame x.outside).map BuiltFrame.bytes).getD [], x.outcomes⟩ s.events
    none

/-- What of it comes to the server. -/
def arrives (wire : List Sent) : Bytes := wire.flatMap fun w => w.event.take w.outcome.sent

/-- The frame that `gather_data` pushes in its next statement. -/
def storedFrame (s : GatherState) : ClientEvent → Option Bytes
  | .gather _ =>
      match s.pc with
      | .store line => if line.length > 0 then some line else none
      | _ => none
  | _ => none

/-- A client comes to another state. -/
def Pipeline.setClient (s : Pipeline) (machine : Bytes) (client : GatherState) : Pipeline :=
  { s with clients := Function.update s.clients machine client }

/-- `handle_gather` for a machine on the list that is not blacklisted, and the client's part of it.
The queue is not read by the decoder. -/
def Pipeline.exchange (s : Pipeline) (machine : Bytes) (x : Exchange) : Option Pipeline :=
  if machine ∈ s.tables.machineList ∧ ¬ 0 < s.tables.blacklist.read machine 0 then
    (clientAnswer (s.clients machine) x).bind fun box =>
      if x.chunks.flatten = arrives box.wire ∧ (∀ chunk ∈ x.chunks, chunk ≠ []) then
        (requestStep x.outcomes x.outside (s.clients machine)).bind fun client =>
          (handleGather machine
              (.response (gatherResponse x.response x.chunks).text x.env x.memory) x.fuel
              { s.tables with eventsToUpload := [] }).map fun tables =>
            { s.setClient machine client with
              tables := { tables with eventsToUpload := [] }
              decoded := s.decoded ++ tables.eventsToUpload }
      else none
  else none

/-- The state after an action; `none` if it is not possible. A response comes in an exchange, and
the pushes of the decoder are not left to the uploader. -/
def pipelineStep (cs : Charset) (s : Pipeline) : PipelineAction → Option Pipeline
  | .client machine e =>
      (clientStep (s.clients machine) e).map fun client =>
        { s.setClient machine client with
          stored := s.stored ++ (storedFrame (s.clients machine) e).toList.map (machine, ·) }
  | .listen call fuel =>
      (handleListen call fuel s.tables).map fun handled => { s with tables := handled.tables }
  | .exchange machine x => s.exchange machine x
  | .fails _ (.response _ _ _) => none
  | .fails machine outcome =>
      if machine ∈ s.tables.machineList then
        (handleGather machine outcome 0 s.tables).map fun tables => { s with tables := tables }
      else none
  | .queue i =>
      (s.decoded[i]?).bind fun e =>
        (uploaderStep cs s.uploader (.push e)).map fun uploader =>
          { s with decoded := s.decoded.eraseIdx i, uploader := uploader }
  | .upload (.push _) => none
  | .upload act =>
      (uploaderStep cs s.uploader act).map fun uploader => { s with uploader := uploader }

/-- Clients that have just started, a server with these tables, and this database. -/
def Pipeline.start (clients : Bytes → GatherState) (tables : Tables) (db : EventDb) : Pipeline :=
  ⟨clients, tables, [], Uploader.start db, []⟩

end Monitoring
