import Monitoring.Lib.SqlLexer

/-!
# `Monitoring.Server.Database`: the tables of the database, and what is asked of them

The server writes SQL into a `mysqlpp::Query` and looks at the answer. What the answer is depends on
the database, and is an input of the functions that ask. An answer is not quite arbitrary: to a
`SELECT` by name the database gives the rows of that name (`Answers`), as far as the name does not
change the statement it stands in (`Plain`), and as the database compares names (`same`).

The `id` of a row is its `user_id` or `machine_id`. The other columns are read by nobody.
-/

set_option autoImplicit false

namespace Monitoring.Server

open Monitoring.Lib

/-- A row of the table `user` or `machine`. -/
structure Row where
  id : Int
  name : Bytes
deriving DecidableEq, Repr

/-- The two tables. -/
structure Database where
  user : List Row
  machine : List Row
deriving DecidableEq, Repr

/-- The statements that are handed to the database. The status of an `UPDATE` is the text that
is printed there. -/
inductive Statement
  | selectUser (name : Bytes)
  | insertUser (name : Bytes) (guestType : Nat)
  | selectMachine (name : Bytes)
  | insertMachine (name : Bytes) (status : Int)
  | insertEvent (timestamp machineId userId : Int) (data blockOffset : Nat)
  | updateMachine (status : Bytes) (stamped : Bool) (machineId : Int)
deriving DecidableEq, Repr

/-- A name between double quotes, as it is. -/
def quoted (name : Bytes) : Bytes := 34 :: name ++ [34]

/-- The text of a statement. -/
def Statement.text : Statement → Bytes
  | .selectUser name => str "SELECT user_id FROM user WHERE user_name=" ++ quoted name
  | .insertUser name guestType =>
      str "INSERT INTO user(user_is_guest,user_name,guest_type) VALUES(1," ++ quoted name ++
        str "," ++ printDec guestType ++ str ")"
  | .selectMachine name => str "SELECT machine_id FROM machine WHERE machine_name=" ++ quoted name
  | .insertMachine name status =>
      str "INSERT INTO machine(machine_name,machine_a_id,machine_status,last_communication) " ++
        str "VALUES(" ++ quoted name ++ str ",1," ++ printDec status ++ str ",unix_timestamp())"
  | .insertEvent timestamp machineId userId data blockOffset =>
      str "INSERT INTO event(event_timestamp,event_machine_id,event_user_id,event_data," ++
        str "event_data_offset) VALUES(" ++ printDec timestamp ++ str "," ++ printDec machineId ++
        str "," ++ printDec userId ++ str "," ++ printDec data ++ str "," ++
        printDec blockOffset ++ str ")"
  | .updateMachine status stamped machineId =>
      str "UPDATE machine SET machine_status=" ++ status ++
        (if stamped then str ",last_communication=unix_timestamp()" else []) ++
        str " WHERE machine_id=" ++ printDec machineId

/-- What `store` returns: the ids in the rows, also if there are none; a result that tests as
false; or an exception. -/
inductive StoreReply
  | rows (ids : List Int)
  | failed
  | badQuery
deriving DecidableEq, Repr

/-- What `exec` returns. -/
inductive ExecReply
  | done
  | failed
  | badQuery
deriving DecidableEq, Repr

/-- The literal that the name stands in is the name: it contains no double quote, and a backslash in
front of `%` or `_` only. -/
def Plain (name : Bytes) : Prop := Verbatim 34 name

instance (name : Bytes) : Decidable (Plain name) := inferInstanceAs (Decidable (Verbatim 34 name))

/-- The reply is one that a table can give to a `SELECT` by this name. -/
def Answers (same : Bytes → Bytes → Bool) (table : List Row) (name : Bytes) : StoreReply → Prop
  | .rows ids => Plain name → ids = (table.filter fun row => same row.name name).map Row.id
  | .failed => True
  | .badQuery => True

instance (same : Bytes → Bytes → Bool) (table : List Row) (name : Bytes) :
    (reply : StoreReply) → Decidable (Answers same table name reply)
  | .rows _ => inferInstanceAs (Decidable (_ → _))
  | .failed => isTrue trivial
  | .badQuery => isTrue trivial

/-- The table has a row with this id, and its name is `name`. -/
def Names (same : Bytes → Bytes → Bool) (table : List Row) (id : Int) (name : Bytes) : Prop :=
  ∃ row ∈ table, row.id = id ∧ same row.name name = true

section
variable {same : Bytes → Bytes → Bool} {table : List Row} {name : Bytes} {ids : List Int}

/-- A row stays where rows are only added. -/
theorem Names.mono {table' : List Row} {id : Int} (h : Names same table id name)
    (hsub : table ⊆ table') : Names same table' id name :=
  h.imp fun _ hrow => ⟨hsub hrow.1, hrow.2⟩

/-- The loop over the rows of an answer keeps the last id. It is the id of a row of that name, if
there is one. -/
theorem Answers.names_last (h : Answers same table name (.rows ids)) (hplain : Plain name)
    (hne : ids ≠ []) (junk : Int) : Names same table (ids.getLastD junk) name := by
  have hmem : ids.getLastD junk ∈ ids := by
    rw [List.getLastD_eq_getLast?, List.getLast?_eq_some_getLast hne]
    exact List.getLast_mem hne
  rw [h hplain] at hmem
  obtain ⟨row, hrow, hid⟩ := List.mem_map.mp hmem
  obtain ⟨hrow, hname⟩ := List.mem_filter.mp hrow
  refine ⟨row, hrow, ?_, hname⟩
  rw [hid, h hplain]

end

end Monitoring.Server
