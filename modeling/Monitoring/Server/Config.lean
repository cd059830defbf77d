import Monitoring.Lib.InputStream
import Monitoring.Lib.Table

/-!
# `Monitoring.Server.Config`: `set_config_options`

The configuration file of the server has lines of the form `KEY = VALUE`. The function reads all of
them into a map, by splitting at the blanks, and then takes eight keys out of the map, one after
the other: a key that has no value is logged, and the function returns -1 at once; otherwise its
global is assigned.

Five of the globals are of type `char *`. They are set to the characters of a string in the map.
Where these are is an input (`buffer`); the map itself lives to the end of the call.
-/

set_option autoImplicit false

namespace Monitoring.Server

open Monitoring.Lib

/-- A `char *`: the address, and the text that is stored there when it is assigned. -/
structure CharPtr where
  address : Nat
  text : Bytes
deriving DecidableEq, Repr

/-- The globals that the function assigns. -/
structure Settings where
  listenPort : Int
  sendPort : Int
  db : CharPtr
  dbServer : CharPtr
  dbUsr : CharPtr
  dbPswd : CharPtr
  mstatusTimer : Int
  errlog : CharPtr
deriving DecidableEq, Repr

/-! ### The file -/

/-- The `out_of_range` of an `at`. Nothing has been assigned then, and nobody catches it. -/
inductive ConfigError
  | outOfRange
deriving DecidableEq, Repr

/-- One line of the file. -/
def readOption (options : Table Bytes Bytes) (line : Bytes) :
    Except ConfigError (Table Bytes Bytes) :=
  -- "skip comments"
  if line.head? = some (ch '#') ∨ line = [] then .ok options
  else
    let s := line.splitOn (ch ' ')
    match s[0]?, s[2]? with
    | some key, some value => .ok (options.set key value)
    | _, _ => .error .outOfRange

/-- The map behind the loop, which makes at most `fuel` passes. -/
def readOptions (text : Bytes) (fuel : Nat) : Option (Except ConfigError (Table Bytes Bytes)) :=
  lineLoop readOption text fuel ∅

/-! ### The eight keys -/

/-- The keys, in the order of the tests. -/
inductive ConfigKey
  | listenPort
  | sendPort
  | db
  | dbServer
  | dbUser
  | dbPswd
  | mstatusTimer
  | errlog
deriving DecidableEq, Repr

namespace ConfigKey

def all : List ConfigKey :=
  [.listenPort, .sendPort, .db, .dbServer, .dbUser, .dbPswd, .mstatusTimer, .errlog]

/-- The name in the file. -/
def name : ConfigKey → Bytes
  | .listenPort => str "LISTEN_PORT"
  | .sendPort => str "SEND_PORT"
  | .db => str "DB"
  | .dbServer => str "DB_SERVER"
  | .dbUser => str "DB_USER"
  | .dbPswd => str "DB_PSWD"
  | .mstatusTimer => str "MSTATUS_TIMER"
  | .errlog => str "ERRLOG"

/-- The assignment in the `else` branch. -/
def assign (buffer : Bytes → Nat) (value : Bytes) (s : Settings) : ConfigKey → Settings
  | .listenPort => { s with listenPort := atoi value }
  | .sendPort => { s with sendPort := atoi value }
  | .db => { s with db := ⟨buffer (str "DB"), value⟩ }
  | .dbServer => { s with dbServer := ⟨buffer (str "DB_SERVER"), value⟩ }
  | .dbUser => { s with dbUsr := ⟨buffer (str "DB_USER"), value⟩ }
  | .dbPswd => { s with dbPswd := ⟨buffer (str "DB_PSWD"), value⟩ }
  | .mstatusTimer => { s with mstatusTimer := atoi value }
  | .errlog => { s with errlog := ⟨buffer (str "ERRLOG"), value⟩ }

/-- What is logged behind the time. -/
def message (key : ConfigKey) : Bytes :=
  str " -- ERROR -- Unable to read Configuration File [" ++ key.name ++
    str "].  System will now exit.\n"

end ConfigKey

/-- What a call returns, the globals behind it, and what it has appended to which file. -/
structure ConfigResult where
  code : Int
  settings : Settings
  logged : Option (CharPtr × Bytes)
deriving DecidableEq, Repr

/-- The tests and assignments, from a key on. `options[key]` makes an empty entry where there is
none, which is the same value. -/
def setOptions (buffer : Bytes → Nat) (options : Table Bytes Bytes) :
    List ConfigKey → Settings → ConfigResult
  | [], s => ⟨0, s, none⟩
  | key :: keys, s =>
      let value := options.read key.name []
      if value = [] then ⟨-1, s, some (s.errlog, key.message)⟩
      else setOptions buffer options keys (key.assign buffer value s)

/-- `set_config_options`, for the contents of the file (`none` if it cannot be opened), with at most
`fuel` passes of its loop. -/
def setConfigOptions (buffer : Bytes → Nat) (config : Option Bytes) (fuel : Nat) (s : Settings) :
    Option (Except ConfigError ConfigResult) :=
  match config with
  | none =>
      some (.ok ⟨-1, s, some (s.errlog,
        str " -- ERROR -- Unable to read Configuration File.  System will now exit.\n")⟩)
  | some text =>
      (readOptions text fuel).map fun options =>
        options.map fun options => setOptions buffer options ConfigKey.all s

/-- The globals of a server that has just started, where `literal` is the address of a string
literal. -/
def Settings.initial (literal : Bytes → Nat) : Settings where
  listenPort := 16100
  sendPort := 16200
  db := ⟨literal (str "LMServer3"), str "LMServer3"⟩
  dbServer := ⟨literal [], []⟩
  dbUsr := ⟨literal [], []⟩
  dbPswd := ⟨literal [], []⟩
  mstatusTimer := 30
  errlog := ⟨literal (str "error.log"), str "error.log"⟩

end Monitoring.Server
