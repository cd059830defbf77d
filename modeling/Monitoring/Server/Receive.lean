import Monitoring.Lib.ChunkedRead

/-!
# `Monitoring.Server.Receive`: what the server reads from its sockets

`handle_gather` reads the response of a client to its end, and each `boost::asio::read` asks for as
many bytes as its buffer has. `handle_listen` calls `read_some` once: the message is what that call
returns. Both store a NUL behind the bytes.
-/

set_option autoImplicit false

namespace Monitoring.Server

open Monitoring.Lib

/-- The size of `response`, which is what every `read` asks for. -/
def responseSize : Nat := 4096

/-- The loop of `handle_gather`: `r_buffer` is the text of the reader, and `response` the memory
from the buffer on. -/
def gatherResponse (response : Bytes) (chunks : List Bytes) : Reader :=
  (Reader.start response).readAll chunks

/-- The size of `data`, which is what `read_some` asks for. -/
def dataSize : Nat := 1024

/-- The start of `handle_listen`: `mName = data` is the text of the reader, and `data` the memory
from the buffer on. Where the connection is closed at once, nothing is stored. -/
def listenData (data : Bytes) (chunks : List Bytes) : Reader :=
  match chunks with
  | [] => Reader.start data
  | chunk :: _ => (Reader.start data).readChunk chunk

end Monitoring.Server
