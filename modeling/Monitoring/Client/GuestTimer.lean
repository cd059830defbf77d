import Monitoring.Client.Users
import Monitoring.Lib.LineSearch
import Monitoring.Lib.Run
import Monitoring.Lib.Table

/-!
# `Monitoring.Client.GuestTimer`: the time limit of the guest accounts

`display_windows_msgbox` and `display_linux_msgbox` are the same loop: they differ in the pipe that
carries the message, and no branch depends on whether the message gets through. One pass of the
loop is `displayMsgbox`. It takes what the pass reads, `currentUsers` and the clock, so a list of
`Poll`s is a history of the loop.

The loop keeps two things. GUEST_EXPIRATION maps a guest to the clock of the poll that saw him
first, and never forgets. The flags `fifteen`, `five`, `one` and `expired` say how far the warnings
have got, and belong to no account: they are cleared by a poll that finds no user at all and after
`kick_expired_accounts`.

`log` is a ghost: the branches that showed a message, each with the user it was shown to.
-/

set_option autoImplicit false

namespace Monitoring.Client

open Monitoring.Lib

/-- `boost::regex_search` with `^gp` and the flag `icase`. -/
def matchesGp (user : Bytes) : Bool := searchLine [ch 'g', ch 'p'] user

/-- The branches of the loop that show a message. The last one also calls
`kick_expired_accounts`. -/
inductive Warning
  | fifteen | five | one | expired
deriving DecidableEq, Repr

/-- The variables of the loop, and GUEST_EXPIRATION. -/
structure GuestTimer where
  fifteen : Bool
  five : Bool
  one : Bool
  expired : Bool
  guestExpiration : Table Bytes Int
  log : List (Warning × Bytes)
deriving DecidableEq

def msgFifteen : Int := 2 * (60 * 60) - 900
def msgFive : Int := 2 * (60 * 60) - 300
def msgOne : Int := 2 * (60 * 60) - 60
def msgExpired : Int := 2 * (60 * 60)

/-- The branch a pass takes for a guest first seen at `t`. -/
def GuestTimer.branch (s : GuestTimer) (t current : Int) : Option Warning :=
  if !s.fifteen && (t + msgFive ≥ current && current ≥ t + msgFifteen) then some .fifteen
  else if (s.fifteen && !s.five) && (t + msgOne ≥ current && current ≥ t + msgFive) then some .five
  else if (s.fifteen && s.five && !s.one) && (t + msgExpired ≥ current && current ≥ t + msgOne) then
    some .one
  else if (s.fifteen && s.five && s.one && !s.expired) && current ≥ t + msgExpired then
    some .expired
  else none

/-- The flags after a branch. -/
def GuestTimer.setFlag (s : GuestTimer) : Warning → GuestTimer
  | .fifteen => { s with fifteen := true }
  | .five => { s with five := true }
  | .one => { s with one := true }
  | .expired => { s with fifteen := false, five := false, one := false, expired := false }

/-- What a pass of the loop reads. -/
structure Poll where
  currentUsers : List User
  clock : Int
deriving DecidableEq, Repr

/-- The guest a pass finds logged in locally, if any. -/
def Poll.guest (p : Poll) : Option Bytes :=
  let user := getCurrentLocalUser p.currentUsers
  if user ≠ [] ∧ matchesGp user then some user else none

/-- The branch the pass takes, if it takes one. -/
def GuestTimer.warning (s : GuestTimer) (p : Poll) : Option Warning :=
  p.guest.bind fun user => (s.guestExpiration.lookup user).bind fun t => s.branch t p.clock

/-- One pass of the loop. `time(NULL)` is read for the entry of a new guest or for `current`, never
for both. -/
def displayMsgbox (s : GuestTimer) (p : Poll) : GuestTimer :=
  if p.currentUsers.length > 0 then
    let user := getCurrentLocalUser p.currentUsers
    if user ≠ [] then
      if matchesGp user then
        match s.guestExpiration.lookup user with
        -- `insert` was new: the pass ends here
        | none => { s with guestExpiration := s.guestExpiration.insertNew user p.clock }
        | some t =>
            match s.branch t p.clock with
            -- between the windows, or in one whose flag is out of step
            | none => s
            | some b => { s.setFlag b with log := s.log ++ [(b, user)] }
      else s
    else s
  -- only an empty `currentUsers` clears the flags; GUEST_EXPIRATION stays
  else { s with fifteen := false, five := false, one := false, expired := false }

/-- The pass calls `kick_expired_accounts`. -/
def GuestTimer.kicks (s : GuestTimer) (p : Poll) : Prop := s.warning p = some .expired

instance (s : GuestTimer) (p : Poll) : Decidable (s.kicks p) :=
  inferInstanceAs (Decidable (_ = _))

/-- A pass as a step; it never fails. -/
def pollStep (s : GuestTimer) (p : Poll) : Option GuestTimer := some (displayMsgbox s p)

/-- The client has just started. -/
def GuestTimer.start : GuestTimer := ⟨false, false, false, false, ∅, []⟩

end Monitoring.Client
