import Monitoring.Lib.Run
import Monitoring.Server.EventStore
import Monitoring.Server.Upload

/-!
# `Monitoring.Proofs.EventStore`: the table `event` is a log of what was uploaded

The rows of `event` refer to users and machines by their ids. `EventDb.log` has the names in place
of the ids, and is what the table says. `UploaderInv` is kept by every step, with others inserting
machines in between: the ids in the locals of `upload_task` are those of the user and the machine of
the EVENT by the time they are used. So an iteration adds one row to the log, unless there is a row
of that machine, user, minute and block already (`uploads_refine_log`), and without a failure
nothing that was pushed is left out (`uploads_complete`). `statements_eq_uploadEvent` says that an
iteration is that of `Monitoring.Server.Upload`.
-/

set_option autoImplicit false

namespace Monitoring.Server

open Monitoring.Lib

variable {cs : Charset}

/-! ### The log -/

/-- A row of `event` with the weights of the names in place of the ids. -/
structure LogRow where
  timestamp : Int
  machine : Option Bytes
  user : Option Bytes
  dataOffset : Int
  data : Int
deriving DecidableEq, Repr

/-- What two rows of a log do not have in common. -/
def LogRow.key (row : LogRow) : Int × Option Bytes × Option Bytes × Int :=
  (row.timestamp, row.machine, row.user, row.dataOffset)

/-- The row that an EVENT stands for. -/
def EVENT.logRow (cs : Charset) (e : EVENT) : LogRow where
  timestamp := unsignedColumn 32 e.timestamp
  machine := some (cs.weight e.machine)
  user := some (cs.weight e.user)
  dataOffset := unsignedColumn 8 e.blockOffset
  data := unsignedColumn 32 e.data

/-- The name of an id. -/
def nameById (cs : Charset) (table : List Row) (id : Int) : Option Bytes :=
  keyById Row.id (fun row => cs.weight row.name) table id

/-- The row with its names. -/
def EventDb.logRow (cs : Charset) (db : EventDb) (row : EventRow) : LogRow where
  timestamp := row.timestamp
  machine := nameById cs db.machine row.machineId
  user := nameById cs db.user row.userId
  dataOffset := row.dataOffset
  data := row.data

/-- What the table `event` says. -/
def EventDb.log (cs : Charset) (db : EventDb) : List LogRow := db.event.map (db.logRow cs)

/-! ### Sound tables -/

/-- The keys of a table of names. -/
structure NameTable (cs : Charset) (table : List Row) : Prop where
  ids : (table.map Row.id).Nodup
  names : (table.map fun row => cs.weight row.name).Nodup

/-- The keys of the three tables, and the ids in `event` exist. -/
structure EventDb.Sound (cs : Charset) (db : EventDb) : Prop where
  user : NameTable cs db.user
  machine : NameTable cs db.machine
  event : (db.event.map EventRow.mykey).Nodup
  userId : ∀ row ∈ db.event, row.userId ∈ db.user.map Row.id
  machineId : ∀ row ∈ db.event, row.machineId ∈ db.machine.map Row.id

section
variable {table : List Row} {row : Row} {db : EventDb} {e : EVENT} {name : Bytes} {id : Int}

theorem NameTable.add (h : NameTable cs table) (hrow : Addable cs table row) :
    NameTable cs (table ++ [row]) where
  ids := by
    rw [List.map_append]
    refine List.nodup_append.mpr ⟨h.ids, List.nodup_singleton _, fun a ha b hb hab => hrow.1 ?_⟩
    obtain rfl := List.mem_singleton.mp hb
    exact hab ▸ ha
  names := by
    rw [List.map_append]
    refine List.nodup_append.mpr ⟨h.names, List.nodup_singleton _, fun a ha b hb hab => hrow.2 ?_⟩
    obtain rfl := List.mem_singleton.mp hb
    subst hab
    exact ha

/-- An id of that name. -/
theorem nameById_of_names (h : NameTable cs table) (hnames : Names cs.same table id name) :
    nameById cs table id = some (cs.weight name) ∧ id ∈ table.map Row.id := by
  obtain ⟨row, hrow, rfl, hsame⟩ := hnames
  have hweight : cs.weight row.name = cs.weight name := of_decide_eq_true hsame
  refine ⟨?_, List.mem_map_of_mem hrow⟩
  rw [← hweight]
  exact keyById_of_mem h.ids hrow

/-- A row that comes to `user` or `machine` changes nothing in the log. -/
theorem log_eq_of_append {db' : EventDb} {users machines : List Row} (h : db.Sound cs)
    (huser : db'.user = db.user ++ users) (hmachine : db'.machine = db.machine ++ machines)
    (hevent : db'.event = db.event) : db'.log cs = db.log cs := by
  unfold EventDb.log
  rw [hevent]
  refine List.map_congr_left fun row hrow => ?_
  unfold EventDb.logRow nameById
  rw [huser, hmachine, keyById_append (h.userId row hrow), keyById_append (h.machineId row hrow)]

/-- An `INSERT INTO event` with the right ids adds the row of the EVENT to the log, unless its key
is there. -/
theorem log_insertEvent {machineId userId : Int} (h : db.Sound cs)
    (hmachine : Names cs.same db.machine machineId e.machine)
    (huser : Names cs.same db.user userId e.user) :
    EventDb.log cs
        { db with event := insertUnique EventRow.mykey (e.row machineId userId) db.event }
      = insertUnique LogRow.key (e.logRow cs) (db.log cs) := by
  obtain ⟨hmname, hmid⟩ := nameById_of_names h.machine hmachine
  obtain ⟨huname, huid⟩ := nameById_of_names h.user huser
  have hlogRow : db.logRow cs (e.row machineId userId) = e.logRow cs := by
    unfold EventDb.logRow EVENT.row EVENT.logRow
    rw [hmname, huname]
  rw [← hlogRow]
  refine insertUnique_map (db.logRow cs) LogRow.key fun row hrow => ?_
  have hmachines : nameById cs db.machine row.machineId = nameById cs db.machine machineId ↔
      row.machineId = machineId :=
    keyById_inj h.machine.ids h.machine.names (h.machineId row hrow) hmid
  have husers : nameById cs db.user row.userId = nameById cs db.user userId ↔
      row.userId = userId :=
    keyById_inj h.user.ids h.user.names (h.userId row hrow) huid
  simp only [EventRow.mykey, LogRow.key, EventDb.logRow, EVENT.row, Prod.mk.injEq, hmachines,
    husers]

theorem EventDb.Sound.insertEvent {machineId userId : Int} (h : db.Sound cs)
    (hmachine : Names cs.same db.machine machineId e.machine)
    (huser : Names cs.same db.user userId e.user) :
    EventDb.Sound cs
      { db with event := insertUnique EventRow.mykey (e.row machineId userId) db.event } where
  user := h.user
  machine := h.machine
  event := nodup_insertUnique h.event
  userId row hrow := by
    rcases mem_of_mem_insertUnique hrow with hrow | rfl
    · exact h.userId row hrow
    · exact (nameById_of_names h.user huser).2
  machineId row hrow := by
    rcases mem_of_mem_insertUnique hrow with hrow | rfl
    · exact h.machineId row hrow
    · exact (nameById_of_names h.machine hmachine).2

theorem EventDb.Sound.addUser (h : db.Sound cs) (hrow : Addable cs db.user row) :
    EventDb.Sound cs { db with user := db.user ++ [row] } where
  user := h.user.add hrow
  machine := h.machine
  event := h.event
  userId r hr := by
    rw [List.map_append]
    exact List.mem_append_left _ (h.userId r hr)
  machineId := h.machineId

theorem EventDb.Sound.addMachine (h : db.Sound cs) (hrow : Addable cs db.machine row) :
    EventDb.Sound cs { db with machine := db.machine ++ [row] } where
  user := h.user
  machine := h.machine.add hrow
  event := h.event
  userId := h.userId
  machineId r hr := by
    rw [List.map_append]
    exact List.mem_append_left _ (h.machineId r hr)

end

/-! ### The iterations -/

/-- The tables can hold the EVENT: the names stand for themselves in a statement, the column keeps
the name of the user, and the machine is there. -/
def Uploadable (cs : Charset) (db : EventDb) (e : EVENT) : Prop :=
  Plain e.user ∧ cs.weight (cs.userName e.user) = cs.weight e.user ∧ Plain e.machine ∧
    ∃ row ∈ db.machine, cs.weight row.name = cs.weight e.machine

/-- The EVENT of an iteration. -/
def UploadPc.event : UploadPc → Option EVENT
  | .idle => none
  | .selectUser e | .insertUser e | .selectNewUser e | .selectMachine e | .insertEvent e => some e

/-- What is known of the locals at each place. -/
def LocalsInv (cs : Charset) (s : Uploader) : Prop :=
  match s.pc with
  | .idle | .selectUser _ => True
  | .insertUser _ => True
  | .selectNewUser e => ∃ row ∈ s.db.user, cs.weight row.name = cs.weight e.user
  | .selectMachine e => Names cs.same s.db.user s.userId e.user
  | .insertEvent e => Names cs.same s.db.user s.userId e.user ∧
      Names cs.same s.db.machine s.machineId e.machine

/-- The tables are sound, they can hold all EVENTs that are not in them yet, and the locals have the
right ids. -/
structure UploaderInv (cs : Charset) (s : Uploader) : Prop where
  db : s.db.Sound cs
  queue : ∀ e ∈ s.eventsToUpload, Uploadable cs s.db e
  current : ∀ e, s.pc.event = some e → Uploadable cs s.db e
  locals : LocalsInv cs s

/-- What is asked of an action: the decoder pushes EVENTs that the tables can hold, and the user
that an iteration adds can be added and looked up again. -/
def UploaderAction.Proper (cs : Charset) (s : Uploader) : UploaderAction → Prop
  | .push e => Uploadable cs s.db e
  | .insertUser reply _ => reply ≠ .failed
  | .select reply => (s.pc matches .selectNewUser _) → reply ≠ .failed
  | _ => True

instance (cs : Charset) (db : EventDb) (e : EVENT) : Decidable (Uploadable cs db e) :=
  inferInstanceAs (Decidable (_ ∧ _ ∧ _ ∧ _))

instance (cs : Charset) (s : Uploader) : (act : UploaderAction) → Decidable (act.Proper cs s)
  | .push e => inferInstanceAs (Decidable (Uploadable cs s.db e))
  | .insertUser _ _ => inferInstanceAs (Decidable (_ ≠ _))
  | .select _ => inferInstanceAs (Decidable (_ → _ ≠ _))
  | .addMachine _ | .begin _ _ | .insertEvent _ => isTrue trivial

section
variable {s t : Uploader} {e : EVENT}

theorem Uploadable.mono {db db' : EventDb} (h : Uploadable cs db e)
    (hmachine : db.machine ⊆ db'.machine) : Uploadable cs db' e :=
  ⟨h.1, h.2.1, h.2.2.1, h.2.2.2.imp fun _ hrow => ⟨hmachine hrow.1, hrow.2⟩⟩

/-- A `SELECT` by a name that is there finds an id of it. -/
theorem names_of_answers {table : List Row} {name : Bytes} {ids : List Int}
    (h : Answers cs.same table name (.rows ids)) (hplain : Plain name)
    (hthere : ∃ row ∈ table, cs.weight row.name = cs.weight name) (junk : Int) :
    Names cs.same table (ids.getLastD junk) name := by
  refine h.names_last hplain ?_ junk
  obtain ⟨row, hrow, hweight⟩ := hthere
  rw [h hplain]
  refine List.ne_nil_of_mem (List.mem_map_of_mem (List.mem_filter.mpr ⟨hrow, ?_⟩))
  exact decide_eq_true hweight

theorem uploaderInv_select {reply : StoreReply} (h : UploaderInv cs s)
    (hproper : UploaderAction.Proper cs s (.select reply))
    (hstep : s.select cs reply = some t) :
    UploaderInv cs t ∧ t.db = s.db ∧ t.inserted = s.inserted := by
  obtain ⟨queue, pc, userId, machineId, db, inserted⟩ := s
  unfold Uploader.select at hstep
  cases pc with
  | selectUser e =>
      have hcurrent := h.current e rfl
      dsimp only at hstep
      split at hstep
      · rename_i hanswers
        cases reply with
        | rows ids =>
            cases ids with
            | nil =>
                cases hstep
                exact ⟨⟨h.db, h.queue, fun _ he => h.current _ he, trivial⟩, rfl, rfl⟩
            | cons id ids =>
                cases hstep
                refine ⟨⟨h.db, h.queue, fun _ he => h.current _ he, ?_⟩, rfl, rfl⟩
                exact Answers.names_last hanswers hcurrent.1 (List.cons_ne_nil id ids) userId
        | failed | badQuery =>
            cases hstep
            exact ⟨⟨h.db, h.queue, (by rintro _ ⟨⟩), trivial⟩, rfl, rfl⟩
      · cases hstep
  | selectNewUser e =>
      have hcurrent := h.current e rfl
      dsimp only at hstep
      split at hstep
      · rename_i hanswers
        cases reply with
        | rows ids =>
            cases hstep
            refine ⟨⟨h.db, h.queue, fun _ he => h.current _ he, ?_⟩, rfl, rfl⟩
            exact names_of_answers hanswers hcurrent.1 h.locals userId
        | failed => exact absurd rfl (hproper rfl)
        | badQuery =>
            cases hstep
            exact ⟨⟨h.db, h.queue, (by rintro _ ⟨⟩), trivial⟩, rfl, rfl⟩
      · cases hstep
  | selectMachine e =>
      have hcurrent := h.current e rfl
      dsimp only at hstep
      split at hstep
      · rename_i hanswers
        cases reply with
        | rows ids =>
            cases hstep
            refine ⟨⟨h.db, h.queue, fun _ he => h.current _ he, h.locals, ?_⟩, rfl, rfl⟩
            exact names_of_answers hanswers hcurrent.2.2.1 hcurrent.2.2.2 machineId
        | failed | badQuery =>
            cases hstep
            exact ⟨⟨h.db, h.queue, (by rintro _ ⟨⟩), trivial⟩, rfl, rfl⟩
      · cases hstep
  | _ => cases hstep

theorem uploaderInv_insertUser {reply : ExecReply} {row : Row} (h : UploaderInv cs s)
    (hproper : reply ≠ .failed) (hstep : s.insertUser cs reply row = some t) :
    UploaderInv cs t ∧ t.db.log cs = s.db.log cs ∧ t.inserted = s.inserted := by
  obtain ⟨queue, pc, userId, machineId, db, inserted⟩ := s
  unfold Uploader.insertUser at hstep
  cases pc with
  | insertUser e =>
      have hcurrent := h.current e rfl
      cases reply with
      | done =>
          dsimp only at hstep
          split at hstep
          · rename_i hadd
            cases hstep
            refine ⟨⟨h.db.addUser hadd.1, h.queue, fun _ he => h.current _ he, row, ?_, ?_⟩,
              ?_, rfl⟩
            · exact List.mem_append_right _ (List.mem_singleton_self row)
            · rw [hadd.2 hcurrent.1]
              exact hcurrent.2.1
            · exact log_eq_of_append h.db rfl (List.append_nil _).symm rfl
          · cases hstep
      | failed => exact absurd rfl hproper
      | badQuery =>
          cases hstep
          exact ⟨⟨h.db, h.queue, (by rintro _ ⟨⟩), trivial⟩, rfl, rfl⟩
  | _ => cases reply <;> cases hstep

/-- What a step adds to the ghost. -/
def Uploader.newlyInserted (s : Uploader) : UploaderAction → List EVENT
  | .insertEvent true => s.pc.event.toList
  | _ => []

/-- Every proper step keeps the invariant, and the log grows with the ghost. -/
theorem uploaderInv_step {act : UploaderAction} (h : UploaderInv cs s) (hproper : act.Proper cs s)
    (hstep : uploaderStep cs s act = some t) :
    UploaderInv cs t ∧ t.inserted = s.inserted ++ s.newlyInserted act ∧
      t.db.log cs
        = insertAll LogRow.key (s.db.log cs) ((s.newlyInserted act).map (EVENT.logRow cs)) := by
  cases act with
  | push e =>
      simp only [uploaderStep] at hstep
      split at hstep <;> cases hstep
      refine ⟨⟨h.db, fun x hx => ?_, h.current, h.locals⟩, (List.append_nil _).symm, rfl⟩
      rcases List.mem_append.mp hx with hx | hx
      · exact h.queue x hx
      · obtain rfl := List.mem_singleton.mp hx
        exact hproper
  | addMachine row =>
      simp only [uploaderStep] at hstep
      split at hstep <;> cases hstep
      rename_i hadd
      have hsub : s.db.machine ⊆ s.db.machine ++ [row] := List.subset_append_left _ _
      refine ⟨⟨h.db.addMachine hadd, fun x hx => (h.queue x hx).mono hsub,
        fun x hx => (h.current x hx).mono hsub, ?_⟩, (List.append_nil _).symm, ?_⟩
      · have hlocals := h.locals
        unfold LocalsInv at hlocals ⊢
        split at hlocals <;> rename_i hpc <;> simp only [hpc]
        · exact hlocals
        · exact hlocals
        · exact ⟨hlocals.1, hlocals.2.mono hsub⟩
      · exact log_eq_of_append h.db (List.append_nil _).symm rfl rfl
  | begin userId machineId =>
      simp only [uploaderStep] at hstep
      split at hstep
      · rename_i e hpc hlast
        cases hstep
        have he : e ∈ s.eventsToUpload := List.mem_of_getLast? hlast
        refine ⟨⟨h.db, fun x hx => h.queue x (List.dropLast_subset _ hx), ?_, trivial⟩,
          (List.append_nil _).symm, rfl⟩
        rintro x ⟨⟩
        exact h.queue _ he
      · cases hstep
  | select reply =>
      obtain ⟨hinv, hdb, hinserted⟩ := uploaderInv_select h hproper hstep
      exact ⟨hinv, hinserted.trans (List.append_nil _).symm, by rw [hdb]; rfl⟩
  | insertUser reply row =>
      obtain ⟨hinv, hlog, hinserted⟩ := uploaderInv_insertUser h hproper hstep
      exact ⟨hinv, hinserted.trans (List.append_nil _).symm, hlog⟩
  | insertEvent reaches =>
      simp only [uploaderStep, Uploader.insertEvent] at hstep
      split at hstep
      · rename_i e hpc
        have hlocals := h.locals
        unfold LocalsInv at hlocals
        rw [hpc] at hlocals
        obtain ⟨huser, hmachine⟩ := hlocals
        cases reaches with
        | true =>
            rw [if_pos rfl] at hstep
            cases hstep
            refine ⟨⟨h.db.insertEvent hmachine huser, fun x hx => h.queue x hx, (by rintro _ ⟨⟩),
              trivial⟩, ?_, ?_⟩
            · simp only [Uploader.newlyInserted, hpc]
              rfl
            · simp only [Uploader.newlyInserted, hpc]
              exact log_insertEvent h.db hmachine huser
        | false =>
            rw [if_neg Bool.false_ne_true] at hstep
            cases hstep
            exact ⟨⟨h.db, h.queue, (by rintro _ ⟨⟩), trivial⟩, (List.append_nil _).symm, rfl⟩
      · cases hstep

end

/-- From the start on. -/
structure UploadedInv (cs : Charset) (before : EventDb) (s : Uploader) : Prop extends
    UploaderInv cs s where
  log : s.db.log cs = insertAll LogRow.key (before.log cs) (s.inserted.map (EVENT.logRow cs))

theorem uploadedInv_start {db : EventDb} (h : db.Sound cs) :
    UploadedInv cs db (Uploader.start db) where
  db := h
  queue := by rintro _ ⟨⟩
  current := by rintro _ ⟨⟩
  locals := trivial
  log := rfl

section
variable {s t : Uploader} {db : EventDb} {act : UploaderAction} {acts : List UploaderAction}

theorem uploadedInv_step (h : UploadedInv cs db s) (hproper : act.Proper cs s)
    (hstep : uploaderStep cs s act = some t) : UploadedInv cs db t := by
  obtain ⟨hinv, hinserted, hlog⟩ := uploaderInv_step h.toUploaderInv hproper hstep
  refine ⟨hinv, ?_⟩
  rw [hlog, h.log, hinserted, List.map_append, insertAll_append]

/-- Whoever inserts machines in between, and whatever else fails: `event` says what it said before,
and then, one after the other, the EVENTs whose `INSERT` came to it, without those of a user,
machine, minute and block that it had. And no user, machine or row is there twice. -/
theorem uploads_refine_log (hdb : db.Sound cs)
    (hproper : AllSteps (uploaderStep cs) (fun s act => act.Proper cs s) acts (Uploader.start db))
    (h : run (uploaderStep cs) acts (Uploader.start db) = some s) :
    s.db.log cs = insertAll LogRow.key (db.log cs) (s.inserted.map (EVENT.logRow cs)) ∧
      s.db.Sound cs := by
  have hinv := run_invariant_of_allSteps (fun _ _ _ => uploadedInv_step) (uploadedInv_start hdb)
    hproper h
  exact ⟨hinv.log, hinv.db⟩

end

/-- A minute of a user, on a machine that is known. -/
def minuteEvent (data : Nat) : EVENT where
  machine := str "pc1"
  timestamp := 1400000040
  user := str "ann"
  blockOffset := 1
  data := data
  guestType := 0

/-- The tables with this machine only. -/
def oneMachine : EventDb where
  user := []
  machine := [⟨3, str "pc1"⟩]
  event := []

theorem sound_oneMachine {cs : Charset} : oneMachine.Sound cs where
  user := ⟨List.nodup_nil, List.nodup_nil⟩
  machine := ⟨List.nodup_singleton _, List.nodup_singleton _⟩
  event := List.nodup_nil
  userId := by rintro _ ⟨⟩
  machineId := by rintro _ ⟨⟩

/-- Names are compared as they are. -/
def plainCharset : Charset := ⟨id, id⟩

/-- The minute is uploaded twice. The first iteration adds the user, and somebody adds a machine. -/
def uploadTwice : List UploaderAction :=
  [.push (minuteEvent 5), .push (minuteEvent 5), .begin 0 0, .select (.rows []),
    .insertUser .done ⟨7, str "ann"⟩, .addMachine ⟨4, str "pc2"⟩, .select (.rows [7]),
    .select (.rows [3]), .insertEvent true, .begin 7 3, .select (.rows [7]), .select (.rows [3]),
    .insertEvent true]

theorem uploads_refine_log_twice : ∃ s,
    run (uploaderStep plainCharset) uploadTwice (Uploader.start oneMachine) = some s ∧
      s.inserted.length = 2 ∧ s.db.event.length = 1 ∧
      s.db.log plainCharset = insertAll LogRow.key (oneMachine.log plainCharset)
        (s.inserted.map (EVENT.logRow plainCharset)) := by
  have hend : (run (uploaderStep plainCharset) uploadTwice (Uploader.start oneMachine)).map
      (fun s => (s.inserted.length, s.db.event.length)) = some (2, 1) := by decide +kernel
  obtain ⟨s, hrun, hs⟩ := Option.map_eq_some_iff.mp hend
  obtain ⟨hinserted, hevent⟩ := Prod.mk.inj hs
  refine ⟨s, hrun, hinserted, hevent, ?_⟩
  exact (uploads_refine_log sound_oneMachine (by decide +kernel) hrun).1

/-! ### Nothing is left out -/

/-- The EVENT that an action pushes. -/
def UploaderAction.pushed : UploaderAction → Option EVENT
  | .push e => some e
  | _ => none

/-- The statement of the action does not fail. -/
def UploaderAction.Succeeds : UploaderAction → Prop
  | .select reply => ∃ ids, reply = .rows ids
  | .insertUser reply _ => reply = .done
  | .insertEvent reaches => reaches = true
  | _ => True

instance : (act : UploaderAction) → Decidable act.Succeeds
  | .select (.rows ids) => isTrue ⟨ids, rfl⟩
  | .select .failed | .select .badQuery => isFalse (by rintro ⟨_, ⟨⟩⟩)
  | .insertUser reply _ => inferInstanceAs (Decidable (reply = _))
  | .insertEvent reaches => inferInstanceAs (Decidable (reaches = _))
  | .push _ | .addMachine _ | .begin _ _ => isTrue trivial

/-- The EVENTs that have come to the table, are in an iteration, or wait. -/
def Uploader.events (s : Uploader) : List EVENT :=
  s.inserted ++ s.pc.event.toList ++ s.eventsToUpload

section
variable {s t : Uploader} {db : EventDb} {act : UploaderAction} {acts : List UploaderAction}

theorem events_congr (hqueue : t.eventsToUpload = s.eventsToUpload)
    (hevent : t.pc.event = s.pc.event) (hinserted : t.inserted = s.inserted) :
    t.events.Perm (s.events ++ []) := by
  unfold Uploader.events
  rw [hqueue, hevent, hinserted, List.append_nil]

/-- A statement that does not fail leaves no EVENT behind. -/
theorem events_step (hsucceeds : act.Succeeds) (hstep : uploaderStep cs s act = some t) :
    t.events.Perm (s.events ++ act.pushed.toList) := by
  cases act with
  | push e =>
      simp only [uploaderStep] at hstep
      split at hstep <;> cases hstep
      exact List.Perm.of_eq (List.append_assoc _ _ _).symm
  | addMachine row =>
      simp only [uploaderStep] at hstep
      split at hstep <;> cases hstep
      exact events_congr rfl rfl rfl
  | begin userId machineId =>
      simp only [uploaderStep] at hstep
      split at hstep
      · rename_i e hpc hlast
        cases hstep
        have hqueue : s.eventsToUpload = s.eventsToUpload.dropLast ++ [e] :=
          (List.dropLast_append_getLast? e hlast).symm
        have hevents : s.events = s.inserted ++ (s.eventsToUpload.dropLast ++ [e]) := by
          unfold Uploader.events
          rw [hpc, ← hqueue]
          exact congrArg (· ++ s.eventsToUpload) (List.append_nil s.inserted)
        rw [hevents]
        change (s.inserted ++ [e] ++ s.eventsToUpload.dropLast).Perm (_ ++ [])
        rw [List.append_nil, List.append_assoc]
        exact List.perm_append_comm.append_left _
      · cases hstep
  | select reply =>
      obtain ⟨ids, rfl⟩ := hsucceeds
      simp only [uploaderStep, Uploader.select] at hstep
      split at hstep
      · rename_i e hpc
        have hevent : s.pc.event = some e := by rw [hpc]; rfl
        split at hstep
        · cases ids <;> cases hstep <;> exact events_congr rfl hevent.symm rfl
        · cases hstep
      · rename_i e hpc
        have hevent : s.pc.event = some e := by rw [hpc]; rfl
        split at hstep <;> cases hstep
        exact events_congr rfl hevent.symm rfl
      · rename_i e hpc
        have hevent : s.pc.event = some e := by rw [hpc]; rfl
        split at hstep <;> cases hstep
        exact events_congr rfl hevent.symm rfl
      · cases hstep
  | insertUser reply row =>
      obtain rfl : reply = .done := hsucceeds
      simp only [uploaderStep, Uploader.insertUser] at hstep
      split at hstep
      · rename_i e hpc hreply
        have hevent : s.pc.event = some e := by rw [hpc]; rfl
        split at hstep <;> cases hstep
        exact events_congr rfl hevent.symm rfl
      · rename_i hreply
        cases hreply
      · rename_i hreply
        cases hreply
      · cases hstep
  | insertEvent reaches =>
      obtain rfl : reaches = true := hsucceeds
      simp only [uploaderStep, Uploader.insertEvent] at hstep
      split at hstep
      · rename_i e hpc
        cases hstep
        have hevents : s.events = s.inserted ++ [e] ++ s.eventsToUpload := by
          unfold Uploader.events
          rw [hpc]
          rfl
        rw [hevents]
        refine List.Perm.of_eq ?_
        change s.inserted ++ [e] ++ [] ++ s.eventsToUpload
          = s.inserted ++ [e] ++ s.eventsToUpload ++ []
        rw [List.append_nil, List.append_nil]
      · cases hstep

/-- An iteration that ends early leaves its EVENT behind. The next statement has the same one. -/
theorem events_subset (hqueue : t.eventsToUpload = s.eventsToUpload)
    (hpc : t.pc = .idle ∨ t.pc.event = s.pc.event) (hinserted : t.inserted = s.inserted) :
    t.events ⊆ s.events := by
  unfold Uploader.events
  rw [hqueue, hinserted]
  rcases hpc with hpc | hpc <;> rw [hpc]
  · refine List.append_subset.mpr ⟨?_, List.subset_append_right _ _⟩
    refine List.append_subset.mpr ⟨?_, List.nil_subset _⟩
    exact List.Subset.trans (List.subset_append_left _ _) (List.subset_append_left _ _)
  · exact List.Subset.refl _

/-- Whatever fails, no EVENT appears that was not pushed, and no machine disappears. -/
theorem events_subset_step (hstep : uploaderStep cs s act = some t) :
    t.events ⊆ s.events ++ act.pushed.toList ∧ s.db.machine ⊆ t.db.machine := by
  have hkeeps {u : Uploader} (hu : u.events ⊆ s.events) : u.events ⊆ s.events ++ [] := by
    rw [List.append_nil]
    exact hu
  cases act with
  | push e =>
      have hsucceeds : (UploaderAction.push e).Succeeds := trivial
      refine ⟨(events_step hsucceeds hstep).subset, ?_⟩
      simp only [uploaderStep] at hstep
      split at hstep <;> cases hstep
      exact List.Subset.refl _
  | addMachine row =>
      have hsucceeds : (UploaderAction.addMachine row).Succeeds := trivial
      refine ⟨(events_step hsucceeds hstep).subset, ?_⟩
      simp only [uploaderStep] at hstep
      split at hstep <;> cases hstep
      exact List.subset_append_left _ _
  | begin userId machineId =>
      have hsucceeds : (UploaderAction.begin userId machineId).Succeeds := trivial
      refine ⟨(events_step hsucceeds hstep).subset, ?_⟩
      simp only [uploaderStep] at hstep
      split at hstep <;> cases hstep
      exact List.Subset.refl _
  | select reply =>
      simp only [uploaderStep, Uploader.select] at hstep
      split at hstep
      all_goals first | cases hstep | skip
      all_goals
        rename_i e hpc
        split at hstep
        swap
        · cases hstep
      · rcases reply with (_ | ⟨id, ids⟩) | _ | _ <;> cases hstep <;>
          exact ⟨hkeeps (events_subset rfl (by simp [UploadPc.event, hpc]) rfl), List.Subset.refl _⟩
      · cases reply <;> cases hstep <;>
          exact ⟨hkeeps (events_subset rfl (by simp [UploadPc.event, hpc]) rfl), List.Subset.refl _⟩
      · cases reply <;> cases hstep <;>
          exact ⟨hkeeps (events_subset rfl (by simp [UploadPc.event, hpc]) rfl), List.Subset.refl _⟩
  | insertUser reply row =>
      simp only [uploaderStep, Uploader.insertUser] at hstep
      split at hstep
      · rename_i e hpc
        split at hstep <;> cases hstep
        exact ⟨hkeeps (events_subset rfl (by simp [UploadPc.event, hpc]) rfl), List.Subset.refl _⟩
      · rename_i e hpc
        cases hstep
        exact ⟨hkeeps (events_subset rfl (by simp [UploadPc.event, hpc]) rfl), List.Subset.refl _⟩
      · cases hstep
        exact ⟨hkeeps (events_subset rfl (Or.inl rfl) rfl), List.Subset.refl _⟩
      · cases hstep
  | insertEvent reaches =>
      cases reaches with
      | true =>
          have hsucceeds : (UploaderAction.insertEvent true).Succeeds := rfl
          refine ⟨(events_step hsucceeds hstep).subset, ?_⟩
          simp only [uploaderStep, Uploader.insertEvent] at hstep
          split at hstep <;> cases hstep
          exact List.Subset.refl _
      | false =>
          simp only [uploaderStep, Uploader.insertEvent] at hstep
          split at hstep <;> cases hstep
          exact ⟨hkeeps (events_subset rfl (Or.inl rfl) rfl), List.Subset.refl _⟩

theorem events_run (hsucceeds : ∀ act ∈ acts, act.Succeeds)
    (h : run (uploaderStep cs) acts s = some t) :
    t.events.Perm (s.events ++ acts.filterMap UploaderAction.pushed) := by
  induction acts generalizing s with
  | nil =>
      cases h
      exact List.Perm.of_eq (List.append_nil _).symm
  | cons act acts ih =>
      obtain ⟨hact, hacts⟩ := List.forall_mem_cons.mp hsucceeds
      obtain ⟨u, hu, hut⟩ := run_cons_eq_some.mp h
      refine (ih hacts hut).trans (((events_step hact hu).append_right _).trans ?_)
      rw [List.append_assoc, List.filterMap_cons]
      cases act.pushed <;> exact List.Perm.refl _

end

/-! ### The statements -/

/-- The statement that is handed to the database at a place. -/
def Uploader.statement (s : Uploader) : Option Statement :=
  match s.pc with
  | .idle => none
  | .selectUser e => some (.selectUser e.user)
  | .insertUser e => some (.insertUser e.user e.guestType)
  | .selectNewUser e => some (.selectUser e.user)
  | .selectMachine e => some (.selectMachine e.machine)
  | .insertEvent e => some (.insertEvent e.timestamp s.machineId s.userId e.data e.blockOffset)

/-- The statements that are handed in a run of answers. -/
def statements (cs : Charset) : List UploaderAction → Uploader → List Statement
  | [], _ => []
  | act :: acts, s =>
      s.statement.toList ++ ((uploaderStep cs s act).map (statements cs acts)).getD []

/-- The answers from the `SELECT` on `machine` on. -/
def machineAnswers (p : UploadPass) : List UploaderAction :=
  .select p.replies.machine ::
    match p.replies.machine with
    | .rows _ => [.insertEvent (p.replies.event = .done)]
    | .failed | .badQuery => []

/-- The answers from the second `SELECT` on `user` on. -/
def newUserAnswers (p : UploadPass) : List UploaderAction :=
  .select p.replies.newUser ::
    match p.replies.newUser with
    | .rows _ | .failed => machineAnswers p
    | .badQuery => []

/-- The statements from there on. -/
def uploadNewUser (p : UploadPass) (e : EVENT) : List Statement :=
  .selectUser e.user ::
    match p.replies.newUser with
    | .rows ids => uploadMachine p e (ids.getLastD p.userId)
    | .failed => uploadMachine p e p.userId
    | .badQuery => []

/-- The answers that an iteration gets, where `row` is what an `INSERT INTO user` adds. -/
def answers (p : UploadPass) (row : Row) : List UploaderAction :=
  .select p.replies.user ::
    match p.replies.user with
    | .rows [] =>
        .insertUser p.replies.userInsert row ::
          match p.replies.userInsert with
          | .badQuery => []
          | .done | .failed => newUserAnswers p
    | .rows (_ :: _) => machineAnswers p
    | .failed | .badQuery => []

variable {s t : Uploader} {e : EVENT} {p : UploadPass} {row : Row}

theorem statements_cons {act : UploaderAction} {acts : List UploaderAction} {q : Statement}
    (hq : s.statement = some q) (hstep : uploaderStep cs s act = some t) :
    statements cs (act :: acts) s = q :: statements cs acts t := by
  rw [statements, hq, hstep]
  rfl

theorem statements_machine (hpc : s.pc = .selectMachine e) (hmachine : s.machineId = p.machineId)
    (hrun : run (uploaderStep cs) (machineAnswers p) s = some t) :
    statements cs (machineAnswers p) s = uploadMachine p e s.userId ∧ t.pc = .idle := by
  unfold machineAnswers uploadMachine at *
  obtain ⟨u, hu, hut⟩ := run_cons_eq_some.mp hrun
  have hq : s.statement = some (.selectMachine e.machine) := by rw [Uploader.statement, hpc]
  rw [statements_cons hq hu]
  simp only [uploaderStep, Uploader.select, hpc] at hu
  split at hu
  · cases hreply : p.replies.machine with
    | rows ids =>
        simp only [hreply] at hu hut ⊢
        cases hu
        obtain ⟨v, hv, hvt⟩ := run_cons_eq_some.mp hut
        cases hvt
        rw [statements_cons rfl hv, hmachine]
        refine ⟨rfl, ?_⟩
        simp only [uploaderStep, Uploader.insertEvent] at hv
        split at hv <;> cases hv <;> rfl
    | failed | badQuery =>
        simp only [hreply] at hu hut ⊢
        cases hu
        cases hut
        exact ⟨rfl, rfl⟩
  · cases hu

theorem statements_newUser (hpc : s.pc = .selectNewUser e) (huser : s.userId = p.userId)
    (hmachine : s.machineId = p.machineId)
    (hrun : run (uploaderStep cs) (newUserAnswers p) s = some t) :
    statements cs (newUserAnswers p) s = uploadNewUser p e ∧ t.pc = .idle := by
  unfold newUserAnswers uploadNewUser at *
  obtain ⟨u, hu, hut⟩ := run_cons_eq_some.mp hrun
  have hq : s.statement = some (.selectUser e.user) := by rw [Uploader.statement, hpc]
  rw [statements_cons hq hu]
  simp only [uploaderStep, Uploader.select, hpc] at hu
  split at hu
  · cases hreply : p.replies.newUser with
    | rows ids =>
        simp only [hreply] at hu hut ⊢
        have hupc : u.pc = .selectMachine e := by rw [← Option.some.inj hu]
        have humachine : u.machineId = p.machineId := by rw [← Option.some.inj hu, hmachine]
        have huuser : u.userId = ids.getLastD p.userId := by rw [← Option.some.inj hu, huser]
        obtain ⟨hstatements, hidle⟩ := statements_machine hupc humachine hut
        rw [hstatements, huuser]
        exact ⟨rfl, hidle⟩
    | failed =>
        simp only [hreply] at hu hut ⊢
        have hupc : u.pc = .selectMachine e := by rw [← Option.some.inj hu]
        have humachine : u.machineId = p.machineId := by rw [← Option.some.inj hu, hmachine]
        have huuser : u.userId = p.userId := by rw [← Option.some.inj hu, huser]
        obtain ⟨hstatements, hidle⟩ := statements_machine hupc humachine hut
        rw [hstatements, huuser]
        exact ⟨rfl, hidle⟩
    | badQuery =>
        simp only [hreply] at hu hut ⊢
        cases hu
        cases hut
        exact ⟨rfl, rfl⟩
  · cases hu

/-- An iteration hands the statements of `uploadEvent` for the answers that it gets. -/
theorem statements_eq_uploadEvent (hpc : s.pc = .selectUser e) (huser : s.userId = p.userId)
    (hmachine : s.machineId = p.machineId)
    (hrun : run (uploaderStep cs) (answers p row) s = some t) :
    statements cs (answers p row) s = uploadEvent p e ∧ t.pc = .idle := by
  unfold answers uploadEvent at *
  obtain ⟨u, hu, hut⟩ := run_cons_eq_some.mp hrun
  have hq : s.statement = some (.selectUser e.user) := by rw [Uploader.statement, hpc]
  rw [statements_cons hq hu]
  simp only [uploaderStep, Uploader.select, hpc] at hu
  split at hu
  · cases hreply : p.replies.user with
    | rows ids =>
        cases ids with
        | nil =>
            simp only [hreply] at hu hut ⊢
            obtain rfl := Option.some.inj hu
            obtain ⟨v, hv, hvt⟩ := run_cons_eq_some.mp hut
            rw [statements_cons rfl hv]
            simp only [uploaderStep, Uploader.insertUser] at hv
            cases hinsert : p.replies.userInsert with
            | badQuery =>
                simp only [hinsert] at hv hvt ⊢
                cases hv
                cases hvt
                exact ⟨rfl, rfl⟩
            | done | failed =>
                simp only [hinsert] at hv hvt ⊢
                have hlocals : v.pc = .selectNewUser e ∧ v.userId = p.userId ∧
                    v.machineId = p.machineId := by
                  first
                  | split at hv <;> cases hv
                    exact ⟨rfl, huser, hmachine⟩
                  | cases hv
                    exact ⟨rfl, huser, hmachine⟩
                obtain ⟨hvpc, hvuser, hvmachine⟩ := hlocals
                obtain ⟨hstatements, hidle⟩ := statements_newUser hvpc hvuser hvmachine hvt
                rw [hstatements]
                exact ⟨rfl, hidle⟩
        | cons id ids =>
            simp only [hreply] at hu hut ⊢
            have hupc : u.pc = .selectMachine e := by rw [← Option.some.inj hu]
            have humachine : u.machineId = p.machineId := by rw [← Option.some.inj hu, hmachine]
            have huuser : u.userId = (id :: ids).getLastD p.userId := by
              rw [← Option.some.inj hu, huser]
            obtain ⟨hstatements, hidle⟩ := statements_machine hupc humachine hut
            rw [hstatements, huuser]
            exact ⟨rfl, hidle⟩
    | failed | badQuery =>
        simp only [hreply] at hu hut ⊢
        cases hu
        cases hut
        exact ⟨rfl, rfl⟩
  · cases hu

end Monitoring.Server
