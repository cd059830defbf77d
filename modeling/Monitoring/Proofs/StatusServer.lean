import Monitoring.Proofs.RegistryThreads
import Monitoring.Proofs.StatusStore
import Monitoring.Server.StatusServer

/-!
# `Monitoring.Proofs.StatusServer`: what an exchange notes comes to the table

The decoder assigns 1 to a machine that has 1 already, so the end of an exchange changes one entry
of the map at most (`finishGather_map`), and the listener makes one at most (`listenerStep_map`). So
a step of the server is one of `Monitoring.Server.StatusStore`, or nothing that it sees
(`statusServerStep_store`), and its invariants hold in every run of the server. `exchange_shown`
follows the status of a machine from the end of an exchange to its row.
-/

set_option autoImplicit false

namespace Monitoring.Server

open Monitoring.Lib

/-! ### What the threads do to the map -/

section
variable {env : ParseEnv} {data : Memory} {machine : Bytes} {st st' : ParseState}
  {m : Table Bytes Int}

/-- The decoder assigns 1, so a map in which the machine has it already stays as it is. -/
theorem checkTimestamp_map (hone : m.set machine 1 = m) (hst : st.mapMnameStatus = m) (l : Int) :
    (checkTimestamp env data machine l st).mapMnameStatus = m := by
  unfold checkTimestamp
  dsimp only
  split
  · rw [hst, hone]
  · exact hst

theorem parseBlock_map (hone : m.set machine 1 = m) (hst : st.mapMnameStatus = m) (user : Bytes)
    (l start : Int) (i : Nat) :
    (parseBlock env data machine user l start st i).mapMnameStatus = m := by
  unfold parseBlock
  dsimp only
  split
  · exact checkTimestamp_map hone hst l
  · exact checkTimestamp_map hone hst l

theorem parseZeroBlock_map (hone : m.set machine 1 = m) (hst : st.mapMnameStatus = m) :
    (parseZeroBlock env data machine st).mapMnameStatus = m := by
  unfold parseZeroBlock ParseState.push
  dsimp only
  generalize u64 _ = l
  exact checkTimestamp_map hone hst l

/-- The blocks of a frame. -/
theorem parseFrame_map (hone : m.set machine 1 = m) (s : LoopState)
    (hs : s.st.mapMnameStatus = m) : (parseFrame env data machine s).st.mapMnameStatus = m := by
  unfold parseFrame
  dsimp only
  refine List.foldlRecOn (motive := fun st : ParseState => st.mapMnameStatus = m) _ _ hs
    fun st hst i _ => ?_
  exact parseBlock_map hone hst _ _ _ i

theorem parseEventBlock_map {fuel : Nat} (hone : m.set machine 1 = m)
    (hst : st.mapMnameStatus = m) (h : parseEventBlock env data machine fuel st = some st') :
    st'.mapMnameStatus = m := by
  unfold parseEventBlock at h
  split at h
  · rw [← Option.some.inj h]
    exact parseZeroBlock_map hone hst
  · obtain ⟨s, hloop, rfl⟩ := Option.map_eq_some_iff.mp h
    exact whileFuel_invariant (parseFrame_map hone) hst hloop

end

section
variable {s t : Tables} {machine name : Bytes}

/-- A response that is decoded is of a machine that is logged in. -/
theorem decode_map {rBuffer : Bytes} {env : ParseEnv} {outside : Int → Byte} {fuel : Nat}
    (h : (s.noteResponse machine rBuffer).decode machine rBuffer env outside fuel = some t) :
    t.mapMnameStatus = (s.noteResponse machine rBuffer).mapMnameStatus := by
  obtain ⟨p, hp, rfl⟩ := Option.map_eq_some_iff.mp h
  unfold decodeResponse at hp
  split at hp
  · rename_i hflag
    refine parseEventBlock_map ?_ rfl hp
    have h8 : ¬ rBuffer.head? = some (ch '8') := by
      rw [hflag]
      decide
    unfold Tables.noteResponse
    rw [if_neg h8, if_pos hflag]
    exact AList.insert_insert _
  · cases hp
    rfl

theorem finishGather_map {outcome : GatherOutcome} {fuel : Nat}
    (h : s.finishGather machine fuel outcome = some t) :
    t.mapMnameStatus = match outcome.status with
      | some status => s.mapMnameStatus.set machine status.number
      | none => s.mapMnameStatus := by
  cases outcome with
  | resolveThrows => cases h
  | timedOut | connectionRefused | hostUnreachable | otherError =>
      cases h
      rfl
  | response rBuffer env outside =>
      rw [decode_map h]
      unfold Tables.noteResponse GatherOutcome.status
      dsimp only
      split
      · rfl
      · split <;> rfl

end

section
variable {s t : Threads}

/-- Where `db_machine_insert` is called, and for which machine. -/
def ListenPc.registering : ListenPc → Option Bytes
  | .dbInsert msg => some msg.mName
  | _ => none

/-- A step of the listener may make an entry, in `db_machine_insert`. -/
theorem listenerStep_map {c : ListenChoice} (h : listenerStep c s = some t) :
    t.tables.mapMnameStatus = s.tables.mapMnameStatus ∨
      ∃ name ∈ s.listener.registering,
        t.tables.mapMnameStatus = s.tables.mapMnameStatus.touch name 0 := by
  unfold listenerStep at h
  cases hpc : s.listener <;> rw [hpc] at h
  case idle => cases h
  case storeAddress again msg =>
    cases h
    unfold Threads.storeAddress
    split <;> exact Or.inl rfl
  case push msg =>
    cases h
    unfold Tables.pushMachine
    split <;> exact Or.inl rfl
  case insertIp msg =>
    cases h
    unfold Threads.insertIp
    split <;> exact Or.inl rfl
  case dbInsert msg =>
    cases h
    unfold Tables.dbMachineInsert
    split
    · exact Or.inr ⟨msg.mName, rfl, rfl⟩
    · exact Or.inl rfl
  case sendList msg =>
    obtain ⟨r, hr, rfl⟩ := Option.map_eq_some_iff.mp h
    obtain ⟨windowsList, linuxList, htables⟩ := sendList_lists hr
    left
    show r.tables.mapMnameStatus = _
    rw [htables]
  all_goals
    cases h
    exact Or.inl rfl

/-- The scan does not change the map. -/
theorem scannerStep_map (s : Threads) :
    (scannerStep s).tables.mapMnameStatus = s.tables.mapMnameStatus := by
  unfold scannerStep
  split
  · rfl
  · split <;> rfl
  · rfl

/-- The first half of an exchange does not either. -/
theorem beginGather_map {machine : Bytes} (h : beginGather s machine = some t) :
    t.tables.mapMnameStatus = s.tables.mapMnameStatus := by
  unfold beginGather at h
  dsimp only at h
  split at h
  · cases h
    rfl
  · split at h <;> cases h
    rfl

end

/-! ### The steps of the server -/

/-- The name that an action brings to the map. -/
def StatusServerAction.names (s : StatusServer) : StatusServerAction → Option Bytes
  | .server (.listen _) => s.threads.listener.registering
  | .server (.finish machine _ _) => some machine
  | _ => none

/-- What is asked of an action: the name fits. -/
def StatusServerAction.Proper (sql : MachineSql) (s : StatusServer) (act : StatusServerAction) :
    Prop := ∀ name ∈ act.names s, Admissible sql s.store name

/-- No statement fails. -/
def StatusServerAction.Succeeds (s : StatusServer) : StatusServerAction → Prop
  | .mstatus act => act.Succeeds s.store
  | .server _ => True

/-- No status of the machine is noted. -/
def StatusServerAction.Spares (name : Bytes) : StatusServerAction → Prop
  | .server a => ∀ noted ∈ a.notes, noted.1 ≠ name
  | .mstatus _ => True

section
variable {sql : MachineSql} {s t : StatusServer}

/-- A step that notes a status. -/
theorem serverStep_notes {threads threads' : Threads} {a : ServerAction} {name : Bytes}
    {status : MachineStatus} (h : serverStep threads a = some threads')
    (hnotes : a.notes = some (name, status)) :
    threads'.tables.mapMnameStatus =
      threads.tables.mapMnameStatus.set name status.number := by
  cases a with
  | accept data | listen c | scan | begin m => cases hnotes
  | finish machine outcome fuel =>
      obtain ⟨-, hfinish⟩ := Option.ite_none_right_eq_some.mp h
      obtain ⟨tables, htables, rfl⟩ := Option.map_eq_some_iff.mp hfinish
      obtain ⟨noted, hstatus, hpair⟩ := Option.map_eq_some_iff.mp hnotes
      obtain ⟨rfl, rfl⟩ := Prod.mk.inj hpair
      have hmap := finishGather_map htables
      rw [hstatus] at hmap
      exact hmap

/-- One that notes none may make an entry. -/
theorem serverStep_map {threads threads' : Threads} {a : ServerAction}
    (h : serverStep threads a = some threads') (hnotes : a.notes = none) :
    threads'.tables.mapMnameStatus = threads.tables.mapMnameStatus ∨
      ∃ c, a = .listen c ∧ ∃ name ∈ threads.listener.registering,
        threads'.tables.mapMnameStatus = threads.tables.mapMnameStatus.touch name 0 := by
  cases a with
  | accept data =>
      obtain ⟨-, haccept⟩ := Option.ite_none_right_eq_some.mp h
      cases haccept
      exact Or.inl rfl
  | listen c => exact (listenerStep_map h).imp_right fun htouch => ⟨c, rfl, htouch⟩
  | scan =>
      cases h
      exact Or.inl (scannerStep_map threads)
  | begin machine =>
      obtain ⟨-, hbegin⟩ := Option.ite_none_right_eq_some.mp h
      exact Or.inl (beginGather_map hbegin)
  | finish machine outcome fuel =>
      obtain ⟨-, hfinish⟩ := Option.ite_none_right_eq_some.mp h
      obtain ⟨tables, htables, rfl⟩ := Option.map_eq_some_iff.mp hfinish
      have hmap := finishGather_map htables
      rw [Option.map_eq_none_iff.mp hnotes] at hmap
      exact Or.inl hmap

/-- A noted status is that of a machine that was asked. -/
theorem names_of_notes {a : ServerAction} {name : Bytes} {status : MachineStatus}
    (hnotes : a.notes = some (name, status)) :
    name ∈ (StatusServerAction.server a).names s := by
  cases a with
  | accept data | listen c | scan | begin m => cases hnotes
  | finish machine outcome fuel =>
      obtain ⟨noted, -, hpair⟩ := Option.map_eq_some_iff.mp hnotes
      exact congrArg some (Prod.mk.inj hpair).1

/-- A step of the server is a step of `update_mstatus`, or of those who write to the map, or leaves
all that they see. -/
theorem statusServerStep_store {act : StatusServerAction} (hproper : act.Proper sql s)
    (hstep : statusServerStep sql s act = some t) :
    t.store = s.store ∨ ∃ storeAct, statusStoreStep sql s.store storeAct = some t.store ∧
      storeAct.Proper sql s.store ∧ (act.Succeeds s → storeAct.Succeeds s.store) ∧
        ∀ name, act.Spares name → storeAct.Spares name := by
  cases act with
  | server a =>
      obtain ⟨threads, hthreads, rfl⟩ := Option.map_eq_some_iff.mp hstep
      unfold StatusServer.store
      dsimp only
      cases hnotes : a.notes with
      | none =>
          rcases serverStep_map hthreads hnotes with hmap | ⟨c, rfl, name, hname, hmap⟩
          · left
            rw [hmap]
          · refine Or.inr ⟨.touch name, ?_, hproper name hname, fun _ => trivial,
              fun _ _ => trivial⟩
            rw [hmap]
            rfl
      | some noted =>
          obtain ⟨name, status⟩ := noted
          refine Or.inr ⟨.setStatus name status, ?_, hproper name (names_of_notes hnotes),
            fun _ => trivial, fun _ hspares => hspares _ hnotes⟩
          rw [serverStep_notes hthreads hnotes]
          rfl
  | mstatus storeAct =>
      cases storeAct with
      | setStatus name status | touch name => cases hstep
      | addRow _ | beginPass | enter _ | select _ | insert _ _ | update _ =>
          obtain ⟨store, hstore, rfl⟩ := Option.map_eq_some_iff.mp hstep
          exact Or.inr ⟨_, hstore, trivial, id, fun _ _ => trivial⟩

variable {name : Bytes} {status : Int}

theorem statusServerInv_step {act : StatusServerAction} (h : StatusStoreInv sql s.store)
    (hproper : act.Proper sql s) (hstep : statusServerStep sql s act = some t) :
    StatusStoreInv sql t.store := by
  rcases statusServerStep_store hproper hstep with heq | ⟨storeAct, hstore, hproper', -, -⟩
  · exact heq ▸ h
  · exact statusStoreInv_step h hproper' hstore

theorem notedInv_step {act : StatusServerAction} (h : NotedInv sql name status s.store)
    (hproper : act.Proper sql s) (hspares : act.Spares name)
    (hstep : statusServerStep sql s act = some t) : NotedInv sql name status t.store := by
  rcases statusServerStep_store hproper hstep with heq | ⟨storeAct, hstore, hproper', -, hspares'⟩
  · exact heq ▸ h
  · exact h.step hproper' (hspares' name hspares) hstore

theorem passInv_step {act : StatusServerAction} (h : PassInv sql name status s.store)
    (hproper : act.Proper sql s) (hsucceeds : act.Succeeds s) (hspares : act.Spares name)
    (hstep : statusServerStep sql s act = some t) : PassInv sql name status t.store := by
  rcases statusServerStep_store hproper hstep with
    heq | ⟨storeAct, hstore, hproper', hsucceeds', hspares'⟩
  · exact heq ▸ h
  · exact h.step hproper' (hsucceeds' hsucceeds) (hspares' name hspares) hstore

variable {windowsList linuxList : Table Int Bytes} {machine : List MachineRow}
  {acts between pass : List StatusServerAction} {u v : StatusServer} {a : ServerAction}
  {noted : MachineStatus}

/-- What an exchange has noted comes to the table. Take any run of the server, then the end of an
exchange that is noted, and then anything in which no other one with this machine is. A response is
decoded in the step that notes it, so a decoder that assigns its 1 late counts as an exchange that
is noted. After a pass in which no statement fails, the table has exactly one row of the machine,
and this row has the status: 1 after an answer with frames, 2 after one that nobody is logged in, 3
after a timeout, a refused connection or an unreachable host. -/
theorem exchange_shown (htable : NameTable sql.toCharset (machine.map MachineRow.toRow))
    (hproper : AllSteps (statusServerStep sql) (fun s act => act.Proper sql s) acts
      (.start windowsList linuxList machine))
    (hacts : run (statusServerStep sql) acts (.start windowsList linuxList machine) = some s)
    (hadmissible : Admissible sql s.store name)
    (hexchange : statusServerStep sql s (.server a) = some u)
    (hnotes : a.notes = some (name, noted))
    (hbetween : AllSteps (statusServerStep sql) (fun s act => act.Proper sql s ∧ act.Spares name)
      between u)
    (hrun : run (statusServerStep sql) between u = some v)
    (hpass : AllSteps (statusServerStep sql)
      (fun s act => act.Proper sql s ∧ act.Succeeds s ∧ act.Spares name)
      (.mstatus .beginPass :: pass) v)
    (hend : run (statusServerStep sql) (.mstatus .beginPass :: pass) v = some t)
    (hidle : t.pc = .idle) :
    t.store.shown sql name = [noted.number] := by
  have hstart : StatusStoreInv sql (StatusServer.start windowsList linuxList machine).store :=
    statusStoreInv_start htable
  have hinv : StatusStoreInv sql s.store :=
    run_invariant_of_allSteps (fun _ _ _ hs hok => statusServerInv_step hs hok) hstart hproper hacts
  have hnamed : StatusServerAction.Proper sql s (.server a) := by
    intro other hother
    obtain rfl := Option.some.inj ((names_of_notes hnotes).symm.trans hother)
    exact hadmissible
  have hmap : u.threads.tables.mapMnameStatus =
      s.threads.tables.mapMnameStatus.set name noted.number := by
    obtain ⟨threads, hthreads, rfl⟩ := Option.map_eq_some_iff.mp hexchange
    exact serverStep_notes hthreads hnotes
  have hnoted : NotedInv sql name noted.number u.store := by
    refine ⟨statusServerInv_step hinv hnamed hexchange, ?_, ?_⟩
    · show name ∈ u.threads.tables.mapMnameStatus
      rw [hmap]
      exact (Table.mem_set _ _ _ _).mpr (Or.inl rfl)
    · show counted (u.threads.tables.mapMnameStatus.read name 0) = _
      rw [hmap, Table.read_set, if_pos rfl]
  have hlater : NotedInv sql name noted.number v.store :=
    run_invariant_of_allSteps (fun _ _ _ hs hok => notedInv_step hs hok.1 hok.2) hnoted hbetween
      hrun
  obtain ⟨w, hw, hwt⟩ := run_cons_eq_some.mp hend
  have hbegun : PassInv sql name noted.number w.store := by
    obtain ⟨store, hstore, rfl⟩ := Option.map_eq_some_iff.mp hw
    exact hlater.beginPass hstore
  have hdone : PassInv sql name noted.number t.store :=
    run_invariant_of_allSteps (fun _ _ _ hs hok => passInv_step hs hok.1 hok.2.1 hok.2.2) hbegun
      (hpass.2 w hw) hwt
  have hnumber : counted noted.number = noted.number := by
    cases noted <;> decide
  rw [← hnumber]
  exact hdone.shows hidle

end

/-- The machine calls home and gets a row, and is asked. -/
def pcAsked : List StatusServerAction :=
  .server (.accept [ch '1', ch '2', ch 'p', ch 'c']) ::
    List.replicate 9 (.server plainListen) ++ .mstatus (.addRow ⟨⟨5, str "pc"⟩, 0⟩) ::
    List.replicate 3 (.server .scan) ++ [.server (.begin (str "pc"))]

/-- It does not answer. -/
def pcSilent : ServerAction := .finish (str "pc") .timedOut 0

/-- A pass over it, with the scan going on. -/
def passOverPcRow : List StatusServerAction :=
  [.mstatus .beginPass, .mstatus (.enter 0), .server .scan, .mstatus (.select (.rows [5])),
    .mstatus (.update .done)]

theorem exchange_shown_offline : ∃ s u t,
    run (statusServerStep plainSql) pcAsked (.start ∅ ∅ []) = some s ∧
      statusServerStep plainSql s (.server pcSilent) = some u ∧
      run (statusServerStep plainSql) passOverPcRow u = some t ∧
      t.store.shown plainSql (str "pc") = [3] := by
  have hend : ((run (statusServerStep plainSql) pcAsked (.start ∅ ∅ [])).bind fun s =>
      (statusServerStep plainSql s (.server pcSilent)).bind fun u =>
        (run (statusServerStep plainSql) passOverPcRow u).map StatusServer.pc) = some .idle := by
    decide +kernel
  obtain ⟨s, hacts, hend⟩ := Option.bind_eq_some_iff.mp hend
  obtain ⟨u, hexchange, hend⟩ := Option.bind_eq_some_iff.mp hend
  obtain ⟨t, hpass, hidle⟩ := Option.map_eq_some_iff.mp hend
  have htable : NameTable plainSql.toCharset (([] : List MachineRow).map MachineRow.toRow) :=
    ⟨List.nodup_nil, List.nodup_nil⟩
  -- a name is its own weight
  have hadmissible (store : StatusStore) : Admissible plainSql store (str "pc") :=
    ⟨⟨by decide, rfl, fun _ => rfl⟩, fun _ _ heq => heq⟩
  have hnames : AllSteps (statusServerStep plainSql) (fun s act => ∀ n ∈ act.names s, n = str "pc")
      pcAsked (.start ∅ ∅ []) := by
    decide +kernel
  have hproper : AllSteps (statusServerStep plainSql) (fun s act => act.Proper plainSql s)
      pcAsked (.start ∅ ∅ []) := by
    have hany : ∀ s act t, True → (∀ n ∈ StatusServerAction.names s act, n = str "pc") →
        statusServerStep plainSql s act = some t → True := fun _ _ _ _ _ _ => trivial
    refine allSteps_of_invariant hany (fun s act _ hpc name hname => ?_) trivial hnames
    rw [hpc name hname]
    exact hadmissible s.store
  have hquiet : AllSteps (statusServerStep plainSql)
      (fun s act => act.Proper plainSql s ∧ act.Succeeds s ∧ act.Spares (str "pc"))
      passOverPcRow u := by
    refine ⟨⟨nofun, trivial, trivial⟩, fun _ _ => ⟨⟨nofun, trivial, trivial⟩, fun _ _ =>
      ⟨⟨nofun, trivial, nofun⟩, fun _ _ => ⟨⟨nofun, ⟨nofun, nofun⟩, trivial⟩, fun _ _ =>
        ⟨⟨nofun, ?_, trivial⟩, fun _ _ => trivial⟩⟩⟩⟩⟩
    unfold StatusServerAction.Succeeds StatusStoreAction.Succeeds
    dsimp only
    split
    · exact nofun
    · rfl
  have hbetween : AllSteps (statusServerStep plainSql)
      (fun s act => act.Proper plainSql s ∧ act.Spares (str "pc")) [] u := trivial
  exact ⟨s, u, t, hacts, hexchange, hpass, exchange_shown htable hproper hacts
    (hadmissible s.store) hexchange rfl hbetween rfl hquiet hpass hidle⟩

end Monitoring.Server
