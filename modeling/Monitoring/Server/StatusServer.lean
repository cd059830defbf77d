import Monitoring.Server.RegistryThreads
import Monitoring.Server.StatusStore

/-!
# `Monitoring.Server.StatusServer`: the status of a machine, from an exchange to its column

`handle_gather` notes in MAP_MNAME_STATUS how an exchange has ended, `handle_listen` may make
entries there, and `update_mstatus` writes what the map holds to the column `machine_status`. This
is the threads of `Monitoring.Server.RegistryThreads` and the loop of
`Monitoring.Server.StatusStore` with the same map. Any step of one can come between two statements
of the other, and several exchanges can be under way, also with one machine. The end of an exchange
is one step: the status is noted and the response decoded.
-/

set_option autoImplicit false

namespace Monitoring.Server

open Monitoring.Lib

/-- The tables and the threads, and the rest of a `StatusStore`. -/
structure StatusServer where
  threads : Threads
  machine : List MachineRow
  pc : VisitPc
  machineId : Int
  current : List Bytes

/-- What `update_mstatus` works on. -/
def StatusServer.store (s : StatusServer) : StatusStore :=
  ⟨s.threads.tables.mapMnameStatus, s.machine, s.pc, s.machineId, s.current⟩

/-- A step of the threads, or of the loop and of those who add rows. -/
inductive StatusServerAction
  | server (a : ServerAction)
  | mstatus (act : StatusStoreAction)

/-- The status that such an exchange is noted with. -/
def GatherOutcome.status : GatherOutcome → Option MachineStatus
  | .timedOut | .connectionRefused | .hostUnreachable => some .offline
  | .response rBuffer _ _ =>
      if rBuffer.head? = some (ch '8') then some .loggedOut
      else if rBuffer.head? = some (ch '2') then some .loggedIn
      else none
  | .resolveThrows | .otherError => none

/-- The machine whose status a step notes, and the status. -/
def ServerAction.notes : ServerAction → Option (Bytes × MachineStatus)
  | .finish machine outcome _ => outcome.status.map (machine, ·)
  | .accept _ | .listen _ | .scan | .begin _ => none

/-- The state after an action; `none` if it is not possible. Statuses and entries come to the map by
steps of the threads only. -/
def statusServerStep (sql : MachineSql) (s : StatusServer) :
    StatusServerAction → Option StatusServer
  | .server a =>
      (serverStep s.threads a).map fun threads =>
        { s with
          threads := threads
          current :=
            match a.notes with
            | some (machine, _) => (s.store.drop machine).current
            | none => s.current }
  | .mstatus (.setStatus _ _) | .mstatus (.touch _) => none
  | .mstatus act =>
      (statusStoreStep sql s.store act).map fun store =>
        { threads :=
            { s.threads with
              tables := { s.threads.tables with mapMnameStatus := store.mapMnameStatus } }
          machine := store.machine
          pc := store.pc
          machineId := store.machineId
          current := store.current }

/-- The server has just started. -/
def StatusServer.start (windowsList linuxList : Table Int Bytes) (machine : List MachineRow) :
    StatusServer :=
  ⟨Threads.start windowsList linuxList, machine, .idle, 0, []⟩

end Monitoring.Server
