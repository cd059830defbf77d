import Monitoring.Server.Registry

/-!
# `Monitoring.Proofs.Registry`: the registry invariant of the server

A machine that is not on MACHINE_LIST has no entry in MAP_MNAME_IP and none in BLACKLIST. That is
why `insert`, which never overwrites, stores the address and the value 0 of a new machine, while
a known machine goes through `operator[]`. BLACKLIST holds nothing but 0 and 1, so the test
`== 1` of `handle_listen` finds every blacklisted machine.

`RegistryInv` is this invariant. Each block of `handle_listen` keeps it and, when it completes,
leaves the machine `Registered`. `registry_invariant` is the statement for every sequence of
executions.
-/

set_option autoImplicit false

namespace Monitoring.Server

open Monitoring.Lib

/-- What relates the three containers. -/
structure RegistryInv (s : Tables) : Prop where
  nodup : s.machineList.Nodup
  named : [] ∉ s.machineList
  ip : ∀ m ∈ s.mapMnameIp, m ≠ [] → m ∈ s.machineList
  listed : ∀ m ∈ s.blacklist, m ≠ [] → m ∈ s.machineList
  values : ∀ m v, s.blacklist.lookup m = some v → v = 0 ∨ v = 1

/-- The machine is on the list, not blacklisted, and has this address. -/
structure Registered (s : Tables) (m sender : Bytes) : Prop where
  mem : m ∈ s.machineList
  blacklist : s.blacklist.lookup m = some 0
  ip : s.mapMnameIp.lookup m = some sender

/-! ### Single updates -/

/-- The invariant is about three containers only. -/
theorem RegistryInv.congr {s t : Tables} (hs : RegistryInv s)
    (hlist : t.machineList = s.machineList) (hip : t.mapMnameIp = s.mapMnameIp)
    (hblack : t.blacklist = s.blacklist) : RegistryInv t where
  nodup := hlist ▸ hs.nodup
  named := hlist ▸ hs.named
  ip := by rw [hlist, hip]; exact hs.ip
  listed := by rw [hlist, hblack]; exact hs.listed
  values := by rw [hblack]; exact hs.values

section
variable {s : Tables} {m sender : Bytes}

/-- `Registered` is about the same three containers. -/
theorem Registered.congr {t : Tables} (h : Registered s m sender)
    (hlist : t.machineList = s.machineList) (hip : t.mapMnameIp = s.mapMnameIp)
    (hblack : t.blacklist = s.blacklist) : Registered t m sender where
  mem := hlist ▸ h.mem
  blacklist := hblack ▸ h.blacklist
  ip := hip ▸ h.ip

/-- An entry of BLACKLIST for a listed machine. -/
theorem RegistryInv.setBlacklist (hs : RegistryInv s) (hm : m ≠ [] → m ∈ s.machineList)
    {b : Table Bytes Int} (hkeys : ∀ k ∈ b, k = m ∨ k ∈ s.blacklist)
    (hvalues : ∀ k v, b.lookup k = some v → v = 0 ∨ v = 1) :
    RegistryInv { s with blacklist := b } where
  nodup := hs.nodup
  named := hs.named
  ip := hs.ip
  listed := by
    intro k hk hne
    rcases hkeys k hk with rfl | hk
    · exact hm hne
    · exact hs.listed k hk hne
  values := hvalues

/-- An entry of MAP_MNAME_IP for a listed machine. -/
theorem RegistryInv.setIp (hs : RegistryInv s) (hm : m ≠ [] → m ∈ s.machineList)
    {t : Table Bytes Bytes} (hkeys : ∀ k ∈ t, k = m ∨ k ∈ s.mapMnameIp) :
    RegistryInv { s with mapMnameIp := t } where
  nodup := hs.nodup
  named := hs.named
  ip := by
    intro k hk hne
    rcases hkeys k hk with rfl | hk
    · exact hm hne
    · exact hs.ip k hk hne
  listed := hs.listed
  values := hs.values

/-- Reading BLACKLIST for a listed machine. -/
theorem RegistryInv.touchBlacklist (hs : RegistryInv s) (hm : m ≠ [] → m ∈ s.machineList) :
    RegistryInv { s with blacklist := s.blacklist.touch m 0 } := by
  refine hs.setBlacklist hm (fun k hk => by simpa using hk) fun k v hv => ?_
  rw [Table.lookup_touch] at hv
  split at hv
  · exact Or.inl (Option.some.inj hv).symm
  · exact hs.values k v hv

/-- Writing one of the two values. -/
theorem RegistryInv.writeBlacklist (hs : RegistryInv s) (hm : m ≠ [] → m ∈ s.machineList)
    {w : Int} (hw : w = 0 ∨ w = 1) :
    RegistryInv { s with blacklist := s.blacklist.set m w } := by
  refine hs.setBlacklist hm (fun k hk => by simpa using hk) fun k v hv => ?_
  rw [Table.lookup_set] at hv
  split at hv
  · rwa [← Option.some.inj hv]
  · exact hs.values k v hv

/-! ### The blocks of `handle_listen` -/

/-- A listed machine is taken off the blacklist, whatever its entry was. -/
theorem unlist_spec (hs : RegistryInv s) (hm : m ∈ s.machineList) :
    RegistryInv (s.unlist m) ∧ (s.unlist m).machineList = s.machineList ∧
      (s.unlist m).blacklist.lookup m = some 0 := by
  have htouch := hs.touchBlacklist (m := m) fun _ => hm
  by_cases hread : (s.blacklist.touch m 0).read m 0 = 1
  · have hunlist : s.unlist m = { s with blacklist := (s.blacklist.touch m 0).set m 0 } :=
      if_pos hread
    rw [hunlist]
    refine ⟨htouch.writeBlacklist (fun _ => hm) (Or.inl rfl), rfl, ?_⟩
    rw [Table.lookup_set, if_pos rfl]
  · have hunlist : s.unlist m = { s with blacklist := s.blacklist.touch m 0 } := if_neg hread
    rw [hunlist]
    refine ⟨htouch, rfl, ?_⟩
    -- the value read is not 1, and `values` leaves only 0
    have hlookup := Table.read_touch s.blacklist m (0 : Int)
    rcases htouch.values m _ hlookup with h0 | h1
    · rw [h0] at hlookup
      exact hlookup
    · exact absurd h1 hread

variable (sender) in
/-- The block for a known machine. -/
theorem refresh_spec (hs : RegistryInv s) (hm : m ∈ s.machineList) (call : EndpointCall) :
    RegistryInv (s.refresh m sender call).tables ∧
    (s.refresh m sender call).tables.machineList = s.machineList ∧
    ((s.refresh m sender call).completed = true →
      Registered (s.refresh m sender call).tables m sender) := by
  obtain ⟨hinv, hlist, hzero⟩ := unlist_spec hs hm
  have hm' : m ≠ [] → m ∈ (s.unlist m).machineList := fun _ => hlist ▸ hm
  -- taken off the blacklist before the address is asked for, so also when that throws
  unfold Tables.refresh Tables.storeAddress
  cases call with
  | returns =>
      refine ⟨hinv.setIp hm' fun k hk => by simpa using hk, hlist, fun _ => ⟨hlist ▸ hm, hzero, ?_⟩⟩
      simp only [Table.lookup_set, if_true]
  | throws keyMade =>
      cases keyMade with
      | true =>
          exact ⟨hinv.setIp hm' fun k hk => by simpa using hk, hlist, fun h => Bool.noConfusion h⟩
      | false => exact ⟨hinv, hlist, fun h => Bool.noConfusion h⟩

/-- The name goes on the list before anything else is known about the machine. -/
theorem pushMachine_spec (hs : RegistryInv s) (hm : m ∉ s.machineList) :
    RegistryInv (s.pushMachine m) ∧ (m ≠ [] → m ∈ (s.pushMachine m).machineList) := by
  unfold Tables.pushMachine
  split
  · rename_i hempty
    exact ⟨hs, fun hne => absurd (List.isEmpty_iff.mp hempty) hne⟩
  · rename_i hne
    refine ⟨⟨?_, ?_, ?_, ?_, hs.values⟩, fun _ => by simp⟩
    · exact List.Nodup.append hs.nodup (List.nodup_singleton m) (by simpa using hm)
    · have hne' : m ≠ [] := by simpa using hne
      simpa using ⟨hs.named, hne'⟩
    · exact fun k hk hk' => List.mem_append_left _ (hs.ip k hk hk')
    · exact fun k hk hk' => List.mem_append_left _ (hs.listed k hk hk')

@[simp] theorem pushMachine_mapMnameIp : (s.pushMachine m).mapMnameIp = s.mapMnameIp := by
  unfold Tables.pushMachine
  split <;> rfl

@[simp] theorem pushMachine_blacklist : (s.pushMachine m).blacklist = s.blacklist := by
  unfold Tables.pushMachine
  split <;> rfl

variable (sender) in
/-- `insert` stores both entries of a machine that had none. -/
theorem insertMachine_spec (hs : RegistryInv s) (hm : m ≠ [] → m ∈ s.machineList) :
    RegistryInv (s.insertMachine m sender) := by
  have hip := hs.setIp hm (t := s.mapMnameIp.insertNew m sender) fun k hk => by simpa using hk
  refine hip.setBlacklist (m := m) hm (fun k hk => by simpa using hk) fun k v hv => ?_
  rw [Table.lookup_insertNew] at hv
  split at hv
  · exact Or.inl (Option.some.inj hv).symm
  · exact hs.values k v hv

/-- `db_machine_insert` may only create a status. -/
theorem dbMachineInsert_containers (db : DbInsert) :
    (s.dbMachineInsert m db).tables.machineList = s.machineList ∧
    (s.dbMachineInsert m db).tables.mapMnameIp = s.mapMnameIp ∧
    (s.dbMachineInsert m db).tables.blacklist = s.blacklist := by
  unfold Tables.dbMachineInsert
  cases db.readsStatus <;> exact ⟨rfl, rfl, rfl⟩

/-- The block for a new machine. -/
theorem register_spec (hs : RegistryInv s) (hm : m ∉ s.machineList) (call : EndpointCall)
    (db : DbInsert) :
    RegistryInv (s.register m sender call db).tables ∧
    ((s.register m sender call db).completed = true → m ≠ [] →
      Registered (s.register m sender call db).tables m sender) := by
  obtain ⟨hpush, hmem⟩ := pushMachine_spec hs hm
  cases call with
  | throws keyMade => exact ⟨hpush, fun h => Bool.noConfusion h⟩
  | returns =>
      have hinsert := insertMachine_spec sender hpush hmem
      -- `db_machine_insert` comes last and touches none of the three containers
      obtain ⟨hlist, hip', hblack'⟩ :=
        dbMachineInsert_containers (s := (s.pushMachine m).insertMachine m sender) (m := m) db
      refine ⟨hinsert.congr hlist hip' hblack', fun _ hne => ?_⟩
      -- no entry of either map is for a machine that is not listed
      have hip : m ∉ (s.pushMachine m).mapMnameIp := by
        rw [pushMachine_mapMnameIp]
        exact fun h => hm (hs.ip m h hne)
      have hblack : m ∉ (s.pushMachine m).blacklist := by
        rw [pushMachine_blacklist]
        exact fun h => hm (hs.listed m h hne)
      refine Registered.congr (s := (s.pushMachine m).insertMachine m sender) ⟨hmem hne, ?_, ?_⟩
        hlist hip' hblack'
      · show ((s.pushMachine m).blacklist.insertNew m 0).lookup m = some 0
        rw [Table.lookup_insertNew, if_pos ⟨rfl, hblack⟩]
      · show ((s.pushMachine m).mapMnameIp.insertNew m sender).lookup m = some sender
        rw [Table.lookup_insertNew, if_pos ⟨rfl, hip⟩]

/-- Sending a program list only extends the program lists. -/
theorem sendList_lists {os : Byte} {throws : Bool} {fuel : Nat} {h : Handled}
    (hsend : s.sendList os throws fuel = some h) :
    ∃ windowsList linuxList,
      h.tables = { s with windowsList := windowsList, linuxList := linuxList } := by
  unfold Tables.sendList at hsend
  split at hsend
  · obtain ⟨j, -, rfl⟩ := Option.map_eq_some_iff.mp hsend
    exact ⟨j.list, s.linuxList, rfl⟩
  · split at hsend
    · obtain ⟨j, -, rfl⟩ := Option.map_eq_some_iff.mp hsend
      exact ⟨s.windowsList, j.list, rfl⟩
    · cases hsend
      exact ⟨s.windowsList, s.linuxList, rfl⟩

/-- So it keeps the three containers. -/
theorem sendList_spec {os : Byte} {throws : Bool} {fuel : Nat} {h : Handled}
    (hsend : s.sendList os throws fuel = some h) :
    h.tables.machineList = s.machineList ∧ h.tables.mapMnameIp = s.mapMnameIp ∧
      h.tables.blacklist = s.blacklist := by
  obtain ⟨windowsList, linuxList, htables⟩ := sendList_lists hsend
  rw [htables]
  exact ⟨rfl, rfl, rfl⟩

/-- The block for a machine that calls home. -/
theorem callHome_spec (hs : RegistryInv s) (call : ListenCall) :
    RegistryInv (s.callHome call m).tables ∧
    ((s.callHome call m).completed = true → m ≠ [] →
      Registered (s.callHome call m).tables m call.sender) := by
  unfold Tables.callHome
  by_cases hm : m ∈ s.machineList
  · rw [if_pos hm]
    obtain ⟨hinv, -, hreg⟩ := refresh_spec call.sender hs hm (call.endpoint 1)
    exact ⟨hinv, fun hc _ => hreg hc⟩
  · rw [if_neg hm]
    exact register_spec hs hm (call.endpoint 0) call.db

/-- The part after the first test. -/
theorem handleFlag_spec (hs : RegistryInv s) {call : ListenCall} {flag os : Byte} {fuel : Nat}
    {h : Handled} (hrun : handleFlag call flag os m fuel s = some h) :
    RegistryInv h.tables ∧
    (h.completed = true → flag = ch '1' → m ≠ [] → Registered h.tables m call.sender) := by
  unfold handleFlag at hrun
  by_cases hflag : flag = ch '1'
  · rw [if_pos hflag] at hrun
    -- only the block of a call-home changes the containers; the list and the end follow it
    obtain ⟨hinv, hreg⟩ := callHome_spec (m := m) hs call
    by_cases hhome : (s.callHome call m).completed = true
    · rw [if_pos hhome] at hrun
      obtain ⟨h', hsend, hclose⟩ := Option.map_eq_some_iff.mp hrun
      obtain ⟨hlist, hip, hblack⟩ := sendList_spec hsend
      have htables : h.tables = h'.tables := by
        rw [← hclose]
        split <;> rfl
      rw [htables]
      exact ⟨hinv.congr hlist hip hblack,
        fun _ _ hne => (hreg hhome hne).congr hlist hip hblack⟩
    · rw [if_neg hhome] at hrun
      cases hrun
      exact ⟨hinv, fun hc => absurd hc hhome⟩
  · rw [if_neg hflag] at hrun
    cases hrun
    exact ⟨hs, fun _ h1 => absurd h1 hflag⟩

end

/-! ### Whole executions -/

/-- The machine name in a message: what follows the flag and the operating system. -/
def machineName (data : Bytes) : Bytes := (cstr data).drop 2

/-- An execution on a message. -/
theorem handleMessage_spec {s : Tables} (hs : RegistryInv s) {call : ListenCall} {data : Bytes}
    {fuel : Nat} {h : Handled} (hrun : handleMessage call data fuel s = some h) :
    RegistryInv h.tables ∧
    (h.completed = true → data.getD 0 0 = ch '1' → machineName data ≠ [] →
      Registered h.tables (machineName data) call.sender) := by
  unfold handleMessage at hrun
  by_cases hshort : (cstr data).length < 2
  · rw [if_pos hshort] at hrun
    cases hrun
    exact ⟨hs, fun hc => Bool.noConfusion hc⟩
  · rw [if_neg hshort] at hrun
    by_cases hm : (cstr data).drop 2 ∈ s.machineList
    · rw [if_pos hm] at hrun
      -- a known machine goes through the same block twice, and the first round may throw
      obtain ⟨hinv, -, -⟩ := refresh_spec call.sender hs hm (call.endpoint 0)
      dsimp only at hrun
      split at hrun
      · exact handleFlag_spec hinv hrun
      · rename_i hc
        cases hrun
        exact ⟨hinv, fun h1 => absurd h1 hc⟩
    · rw [if_neg hm] at hrun
      exact handleFlag_spec hs hrun

/-- An execution of `handle_listen`. -/
theorem handleListen_inv {s : Tables} (hs : RegistryInv s) {call : ListenCall} {fuel : Nat}
    {h : Handled} (hrun : handleListen call fuel s = some h) : RegistryInv h.tables := by
  unfold handleListen at hrun
  split at hrun
  · cases hrun
    exact hs
  · cases hrun
    exact hs
  · exact (handleMessage_spec hs hrun).1

/-- A response changes statuses and rows only. -/
theorem decode_containers {s t : Tables} {m rBuffer : Bytes} {env : ParseEnv}
    {outside : Int → Byte} {fuel : Nat}
    (hrun : (s.noteResponse m rBuffer).decode m rBuffer env outside fuel = some t) :
    t.machineList = s.machineList ∧ t.mapMnameIp = s.mapMnameIp ∧
      t.blacklist = s.blacklist := by
  obtain ⟨p, -, rfl⟩ := Option.map_eq_some_iff.mp hrun
  unfold Tables.noteResponse
  split_ifs <;> exact ⟨rfl, rfl, rfl⟩

/-- The end of `handle_gather` registers nobody. -/
theorem finishGather_names {s t : Tables} {m : Bytes} {outcome : GatherOutcome} {fuel : Nat}
    (hrun : s.finishGather m fuel outcome = some t) :
    t.machineList = s.machineList ∧ t.mapMnameIp = s.mapMnameIp := by
  cases outcome with
  | resolveThrows => cases hrun
  | timedOut => cases hrun; exact ⟨rfl, rfl⟩
  | connectionRefused => cases hrun; exact ⟨rfl, rfl⟩
  | hostUnreachable => cases hrun; exact ⟨rfl, rfl⟩
  | otherError => cases hrun; exact ⟨rfl, rfl⟩
  | response rBuffer env outside =>
      obtain ⟨hlist, hip, -⟩ := decode_containers hrun
      exact ⟨hlist, hip⟩

/-- The end of `handle_gather` may blacklist a listed machine. -/
theorem finishGather_inv {s t : Tables} (hs : RegistryInv s) {m : Bytes}
    (hm : m ∈ s.machineList) {outcome : GatherOutcome} {fuel : Nat}
    (hrun : s.finishGather m fuel outcome = some t) : RegistryInv t := by
  -- 1 is the other value that `values` allows
  have hoffline : RegistryInv (s.offline m) :=
    (hs.writeBlacklist (fun _ => hm) (Or.inr rfl)).congr rfl rfl rfl
  cases outcome with
  | resolveThrows => cases hrun
  | timedOut => cases hrun; exact hoffline
  | connectionRefused => cases hrun; exact hoffline
  | hostUnreachable => cases hrun; exact hoffline
  | otherError => cases hrun; exact hs
  | response rBuffer env outside =>
      obtain ⟨hlist, hip, hblack⟩ := decode_containers hrun
      exact hs.congr hlist hip hblack

/-- An execution of `handle_gather` on a listed machine. -/
theorem handleGather_inv {s t : Tables} (hs : RegistryInv s) {m : Bytes} (hm : m ∈ s.machineList)
    {outcome : GatherOutcome} {fuel : Nat} (hrun : handleGather m outcome fuel s = some t) :
    RegistryInv t := by
  have htouch := hs.touchBlacklist (m := m) fun _ => hm
  unfold handleGather at hrun
  dsimp only at hrun
  split at hrun
  · cases hrun
    exact htouch
  · split at hrun
    · cases hrun
    · exact finishGather_inv htouch hm hrun

/-- One execution. -/
theorem execute_inv {s t : Tables} (hs : RegistryInv s) {e : Execution}
    (h : execute s e = some t) : RegistryInv t := by
  cases e with
  | listen call fuel =>
      obtain ⟨r, hr, rfl⟩ := Option.map_eq_some_iff.mp h
      exact handleListen_inv hs hr
  | scan m =>
      simp only [execute] at h
      split at h
      · cases h
        exact hs.touchBlacklist fun _ => ‹_›
      · cases h
  | gather m outcome fuel =>
      simp only [execute] at h
      split at h
      · exact handleGather_inv hs ‹_› h
      · cases h

theorem registryInv_empty (windowsList linuxList : Table Int Bytes) :
    RegistryInv (Tables.empty windowsList linuxList) where
  nodup := List.nodup_nil
  named := List.not_mem_nil
  ip := fun _ h => absurd h (AList.notMem_empty _)
  listed := fun _ h => absurd h (AList.notMem_empty _)
  values := fun m v h => by simp [Tables.empty] at h

/-- From empty tables, after any sequence of whole executions: the registry invariant holds, and
a call-home that runs without an exception leaves its machine registered under the sender's
address, whether it was new, known or blacklisted. -/
theorem registry_invariant {windowsList linuxList : Table Int Bytes} {es : List Execution}
    {s : Tables} (h : run execute es (Tables.empty windowsList linuxList) = some s) :
    RegistryInv s ∧
    ∀ (call : ListenCall) (data : Bytes) (fuel : Nat) (r : Handled),
      call.read = .message data → data.head? = some (ch '1') → machineName data ≠ [] →
      handleListen call fuel s = some r → r.completed = true →
      Registered r.tables (machineName data) call.sender := by
  have hs : RegistryInv s := run_invariant (fun _ _ _ hs hstep => execute_inv hs hstep)
    (registryInv_empty windowsList linuxList) h
  refine ⟨hs, fun call data fuel r hread hflag hne hrun hc => ?_⟩
  -- the statement reads the message as a list, the code by its index
  have hflag' : data.getD 0 0 = ch '1' := by
    rw [List.head?_eq_getElem?] at hflag
    rw [List.getD_eq_getElem?_getD, hflag, Option.getD_some]
  unfold handleListen at hrun
  rw [hread] at hrun
  exact (handleMessage_spec hs hrun).2 hc hflag' hne

/-- A machine `pc` with the given address calls home, and nothing goes wrong. -/
def callHomeOf (sender : Bytes) : ListenCall where
  read := .message [ch '1', ch '2', ch 'p', ch 'c']
  sender := sender
  endpoint := fun _ => .returns
  db := ⟨true, false⟩
  sendThrows := false
  closeThrows := false

/-- The machine registers and times out, so it is blacklisted; a call-home from another address
registers it again. -/
theorem registry_invariant_again :
    ∃ s r, run execute [.listen (callHomeOf [ch '7']) 1, .gather [ch 'p', ch 'c'] .timedOut 0]
        (Tables.empty ∅ ∅) = some s ∧ s.blacklist.lookup [ch 'p', ch 'c'] = some 1 ∧
      handleListen (callHomeOf [ch '8']) 1 s = some r ∧
      Registered r.tables [ch 'p', ch 'c'] [ch '8'] := by
  refine ⟨_, _, rfl, by decide, rfl, ?_⟩
  exact (@registry_invariant ∅ ∅
    [.listen (callHomeOf [ch '7']) 1, .gather [ch 'p', ch 'c'] .timedOut 0] _ rfl).2
    (callHomeOf [ch '8']) [ch '1', ch '2', ch 'p', ch 'c'] 1 _ rfl rfl (by decide) rfl (by decide)

end Monitoring.Server
