import Monitoring.Client.Gather
import Monitoring.Lib.CText
import Monitoring.Lib.Raise
import Monitoring.Lib.Table

/-!
# `Monitoring.Client.Config`: the configuration file

`main` reads the file into a `ptree` and copies the settings into globals, one after the other, all
in one `try` block. A node that is missing raises. The `catch` block logs, and `main` goes on with
the globals as they are then.

`read_xml` is a library function, and a parameter here: it makes a tree of a text, or raises. The
access functions of `ptree` are those of `boost/property_tree`.

On Linux four of the globals are of type `char *`, and are assigned the address of a string that
lives to the end of the statement (`PathPtr.dangling`).
-/

set_option autoImplicit false

namespace Monitoring.Client

open Monitoring.Lib

/-! ### The tree -/

/-- A `ptree`: its data, and its children with their keys, in order. -/
inductive PTree
  | node (data : Bytes) (children : List (Bytes × PTree))

namespace PTree

/-- `data()`. -/
def data : PTree → Bytes
  | node data _ => data

/-- What an iteration over the tree visits. -/
def children : PTree → List (Bytes × PTree)
  | node _ children => children

/-- `find(key)`: the first child with this key. -/
def find (t : PTree) (key : Bytes) : Option PTree :=
  (t.children.find? fun child => child.1 = key).map Prod.snd

/-- `walk_path`. -/
def walkPath (t : PTree) : List Bytes → Option PTree
  | [] => some t
  | fragment :: rest => (t.find fragment).bind fun child => child.walkPath rest

/-- `get_child_optional`. -/
def getChildOptional (t : PTree) (path : Bytes) : Option PTree :=
  t.walkPath (path.splitOn (ch '.'))

/-- `get<std::string>(path, default_value)`. -/
def getString (t : PTree) (path defaultValue : Bytes) : Bytes :=
  ((t.getChildOptional path).map data).getD defaultValue

/-- `get_optional<int>`: the whole of the data is a number, but for blanks around it. -/
def getIntOptional (t : PTree) (path : Bytes) : Option Int :=
  (t.getChildOptional path).bind fun child =>
    (streamInt child.data).bind fun (n, rest) =>
      if rest.dropWhile isSpace = [] then some n else none

/-- `get<int>(path, default_value)`. -/
def getInt (t : PTree) (path : Bytes) (defaultValue : Int) : Int :=
  (t.getIntOptional path).getD defaultValue

end PTree

/-! ### The settings -/

/-- A `char *`: a literal, or the buffer of a string that does not exist any more. -/
inductive PathPtr
  | literal (text : Bytes)
  | dangling
deriving DecidableEq, Repr

/-- The globals that `main` assigns. -/
structure Settings where
  eventFile : PathPtr
  errLog : PathPtr
  pFile : PathPtr
  config : PathPtr
  serverAddress : Bytes
  sendPort : Int
  listenPort : Int
  restrictedMsg : Bytes
  expireMsg : Bytes
  expiredMsg : Bytes
  blockedRegex : Bytes
  msgDisplayTimes : List Int
  eventSize : Int
  frequency : Int
  callHome : Int
  scripts2 : Table Bytes (List Bytes)

/-- Before `main`. A global without an initialiser is 0, or empty. -/
def Settings.initial : Settings where
  eventFile := .literal (str "/opt/monitoring/data/events")
  errLog := .literal (str "/var/log/monitoring-client.log")
  pFile := .literal (str "/opt/monitoring/config/masterlist.txt")
  config := .literal (str "/opt/monitoring/config/default.cfg")
  serverAddress := []
  sendPort := 0
  listenPort := 0
  restrictedMsg := []
  expireMsg := []
  expiredMsg := []
  blockedRegex := []
  msgDisplayTimes := []
  eventSize := 0
  frequency := 0
  callHome := 0
  scripts2 := ∅

/-- What is caught: `xml_parser_error`, `ptree_bad_path` ("No such node", and the path), or the
`out_of_range` of an `at`. -/
inductive ConfigError
  | xmlParser
  | badPath (path : Bytes)
  | outOfRange
deriving DecidableEq, Repr

/-- The statements of the `try` block. -/
abbrev ConfigM := EStateM ConfigError Settings

/-- `get_child`, and `get<std::string>` without a default. -/
def getChild (t : PTree) (path : Bytes) : ConfigM PTree :=
  match t.getChildOptional path with
  | some child => pure child
  | none => throw (.badPath path)

/-- "Read in File paths". -/
def readPaths (pt : PTree) : ConfigM Unit := do
  let _ ← getChild pt (str "path.data")
  modify fun s => { s with eventFile := .dangling }
  let _ ← getChild pt (str "path.log")
  modify fun s => { s with errLog := .dangling }
  -- "path.plist" has a default, but that makes a string too
  modify fun s => { s with pFile := .dangling }
  let _ ← getChild pt (str "path.config")
  modify fun s => { s with config := .dangling }

/-- "Network setup". -/
def readNetwork (pt : PTree) : ConfigM Unit := do
  let server ← getChild pt (str "network.server")
  modify fun s => { s with serverAddress := server.data }
  modify fun s => { s with sendPort := pt.getInt (str "network.send_port") 16100 }
  modify fun s => { s with listenPort := pt.getInt (str "network.listen_port") 16200 }

/-- "Messages setup". -/
def readMessages (pt : PTree) : ConfigM Unit := do
  modify fun s => { s with
    restrictedMsg := pt.getString (str "messages.restricted")
      (str ("The user account you are attempting to log in with is not allowed access on this " ++
        "machine.")) }
  modify fun s => { s with
    expireMsg := pt.getString (str "messages.expire")
      (str "Your user accout will expire soon, and you will be logged out at that time.") }
  modify fun s => { s with
    expiredMsg := pt.getString (str "messages.expired")
      (str "Your user account has expired and you will now be logged out.") }
  modify fun s => { s with blockedRegex := pt.getString (str "messages.blocked") (str "null") }
  let times := splitCompress (ch ',') (pt.getString (str "messages.display_times") (str "15,5,1"))
  modify fun s => { s with msgDisplayTimes := s.msgDisplayTimes ++ times.map atoi }

/-- "Settings setup". -/
def readSettings (pt : PTree) : ConfigM Unit := do
  modify fun s => { s with eventSize := pt.getInt (str "settings.size") 32 }
  modify fun s => { s with frequency := pt.getInt (str "settings.frequency") 1 }
  modify fun s => { s with callHome := pt.getInt (str "settings.call_home") 10 }

/-- One item `Day:Hour:Minute` of a time. The first field is always there; `at` raises where one of
the others is not, or where the day is none of the seven. -/
def setWeekday (weekdays : List Bytes) (item : Bytes) : Except ConfigError (List Bytes) :=
  let fields := splitCompress (ch ':') item
  let day := atoi (fields.headD [])
  match fields[1]?, fields[2]? with
  | some hour, some minute =>
      if day = 0 then .ok (weekdays.map fun _ => hour ++ [ch ':'] ++ minute)
      else if 0 ≤ day ∧ day < weekdays.length then
        .ok (weekdays.set day.toNat (hour ++ [ch ':'] ++ minute))
      else .error .outOfRange
  | _, _ => .error .outOfRange

/-- One child of "scripts". -/
def addScript (scripts : Table Bytes (List Bytes)) (v : Bytes × PTree) :
    Except ConfigError (Table Bytes (List Bytes)) :=
  if v.1 = str "script" then
    match v.2.getChildOptional (str "command") with
    | none => .error (.badPath (str "command"))
    | some child =>
        let cmd := child.data
        let times := v.2.getString (str "time") (str "notfound")
        -- the default is not empty, so this holds of every script without a time
        if times ≠ [] ∨ cmd ≠ [] then
          ((splitCompress (ch ',') times).foldlM setWeekday (List.replicate 7 (str "0:00"))).map
            fun weekdays => scripts.insertNew cmd weekdays
        else .ok scripts
  else .ok scripts

/-- "Scripts setup". The map that is filled is a local one; it is copied at the end. -/
def readScripts (pt : PTree) : ConfigM Unit := do
  let list ← getChild pt (str "scripts")
  match list.children.foldlM addScript ∅ with
  | .ok scripts => modify fun s => { s with scripts2 := scripts }
  | .error e => throw e

/-- The `try` block of `main`, for the contents of the file (`none` if it cannot be opened). -/
def readConfig (readXml : Bytes → Option PTree) (file : Option Bytes) : ConfigM Unit :=
  match file.bind readXml with
  | none => throw .xmlParser
  | some pt => do
      readPaths pt
      readNetwork pt
      readMessages pt
      readSettings pt
      readScripts pt

/-- The settings with which `main` calls `run_tasks`. -/
def configure (readXml : Bytes → Option PTree) (file : Option Bytes) : Settings :=
  finalState (readConfig readXml file Settings.initial)

/-- `run_tasks`. PROGRAM_COUNT is still 0. -/
def runTasks (settings : Settings) (clock : Int) : GatherState :=
  GatherState.begin clock settings.eventSize 0

end Monitoring.Client
