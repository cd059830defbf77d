import Monitoring.Client.Users
import Monitoring.Lib.Lines
import Monitoring.Lib.SortUnique

/-!
# `Monitoring.Client.LoggedIn`: the users that `who` lists

`linux_logged_in` reads the output of `who` in pieces, sorts them and drops the repetitions. Then it
splits each at its spaces and appends a user to `currentUsers` for every name that is not the one of
the line before: a local user if the second field is `:0`, and otherwise a remote one, unless the
fifth is `(:0)`. A C++ exception, and an index behind the end of a vector, are `none`.

`check_allowed_accounts` is called next. It looks at the first user only.
-/

set_option autoImplicit false

namespace Monitoring.Client

open Monitoring.Lib

/-- An entry of `currentUsers` with its terminal. -/
structure Session extends User where
  terminal : Bytes
deriving DecidableEq, Repr

/-- `std::string::substr`, which throws if the place is behind the end. -/
def substr (s : Bytes) (pos count : Nat) : Option Bytes :=
  if s.length < pos then none else some ((s.drop pos).take count)

/-! ### `split_string` -/

/-- What is in front of the last newline. -/
def beforeNewline (s : Bytes) : Bytes :=
  ((s.reverse.dropWhile fun c => c ≠ ch '\n').drop 1).reverse

/-- `split_string`, for a delimiter of one character. -/
def splitString (s : Bytes) (delim : Byte) (compress : Bool) : Option (List Bytes) :=
  -- `erase(find_last_of("\n"))` throws if there is none
  if ch '\n' ∈ s then
    some (if compress then splitCompress delim (beforeNewline s)
      else (beforeNewline s).splitOn delim)
  else none

/-! ### `linux_logged_in` -/

/-- The size of `x`. -/
def whoSize : Nat := 200

/-- The strings the reading loop pushes. -/
def whoLines (output : Bytes) : List Bytes := (fgetsPieces (whoSize - 1) output).map cstr

/-- The entry that is pushed for a new name, if any. -/
def newSession (name : Bytes) (splits : List Bytes) : Option (List Session) :=
  match splits[1]? with
  | none => none
  | some tty =>
      if tty = str ":0" then some [{ name := name, isLocal := true, terminal := str "pts/0" }]
      else
        match splits[4]? with
        | none => none
        | some host =>
            if host ≠ str "(:0)" then
              (substr host 1 (host.length - 2)).map fun terminal =>
                [{ name := name, isLocal := false, terminal := terminal }]
            else some []

/-- One pass of the inner loop: `name`, and `currentUsers`. -/
def fieldPass (splits : List Bytes) (s : Bytes × List Session) : Option (Bytes × List Session) :=
  match splits[0]? with
  | none => none
  | some first =>
      if s.1 ≠ first then (newSession first splits).map fun new => (first, s.2 ++ new) else some s

/-- One pass of the outer loop. The inner one runs over `splits`, and looks at all of them each
time. -/
def linePass (s : Bytes × List Session) (oline : Bytes) : Option (Bytes × List Session) :=
  (splitString oline (ch ' ') true).bind fun splits =>
    splits.foldlM (fun s _ => fieldPass splits s) s

/-- `linux_logged_in`: what it returns, and `currentUsers` behind it. -/
def linuxLoggedIn (output : Bytes) (currentUsers : List Session) : Option (Bool × List Session) :=
  ((sortUnique (· ≤ ·) (whoLines output)).foldlM linePass ([], currentUsers)).map fun s =>
    (!s.2.isEmpty, s.2)

/-! ### `check_allowed_accounts` -/

/-- `check_allowed_accounts`: how often it calls `kick_expired_accounts`. `search pattern name` is
the case-blind `regex_search`. -/
def checkAllowedAccounts (search : Bytes → Bytes → Bool) (br : Bytes)
    (currentUsers : List User) : Option Nat :=
  if br = str "null" then some 0
  else
    match currentUsers with
    -- `at(0)` throws
    | [] => none
    | u :: _ => some ((br.splitOn (ch ',')).countP fun pattern => search pattern u.name)

end Monitoring.Client
