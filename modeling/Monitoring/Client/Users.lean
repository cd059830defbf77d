import Monitoring.Lib.CText

/-!
# `Monitoring.Client.Users`: who is logged in

`currentUsers` is filled by `logged_in` at the start of a cycle of `gather_data` and cleared at its
end. Two threads read it through `get_current_local_user`: the one that gathers, and the one that
watches the guest accounts. A third, `listen_thread`, does so for the EVENT of the current minute.
-/

set_option autoImplicit false

namespace Monitoring.Client

open Monitoring.Lib

/-- An entry of `currentUsers`, as far as its readers look at it. -/
structure User where
  name : Bytes
  isLocal : Bool
deriving DecidableEq, Repr

/-- `get_current_local_user`. -/
def getCurrentLocalUser : List User → Bytes
  | [] => []
  | u :: us => if u.isLocal then u.name else getCurrentLocalUser us

end Monitoring.Client
