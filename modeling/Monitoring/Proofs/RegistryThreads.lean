import Monitoring.Proofs.Registry
import Monitoring.Server.RegistryThreads

/-!
# `Monitoring.Proofs.RegistryThreads`: when a gathered machine has an address

`handle_listen` puts the name of a new machine on MACHINE_LIST first and stores its address later,
and `remote_endpoint()` may throw in between. `ThreadsInv` says which listed machines have no
address: the one the listener is about to insert, and the stranded ones. `gather_task` may meet
any of them, so `handle_gather` is started with an address exactly if it is started for none of
these (`gathered_address_iff`).

`beginGather_defined` is the consequence for `it->second`, and `handleMessage_run` connects the
threads with `handleMessage`: an execution without interruption is a run of the listener.
-/

set_option autoImplicit false

namespace Monitoring.Server

open Monitoring.Lib

/-! ### The invariant -/

/-- The machine of the block for a known machine. -/
def ListenPc.known : ListenPc → Option Bytes
  | .testListed _ msg => some msg.mName
  | .unlist _ msg => some msg.mName
  | .storeAddress _ msg => some msg.mName
  | _ => none

/-- The machine about to be put on the list. -/
def ListenPc.pushing : ListenPc → Option Bytes
  | .push msg => some msg.mName
  | _ => none

/-- The machine between `push_back` and `MAP_MNAME_IP.insert`. -/
def ListenPc.inserting : ListenPc → Option Bytes
  | .insertIp msg => some msg.mName
  | _ => none

/-- The machine for which the next step of `gather_task` starts a thread. -/
def ScanPc.launching : ScanPc → Option Bytes
  | .launch _ machine => some machine
  | _ => none

/-- Which listed machines have no address. -/
structure ThreadsInv (s : Threads) : Prop where
  named : [] ∉ s.tables.machineList
  ip : ∀ m ∈ s.tables.mapMnameIp, m ≠ [] → m ∈ s.tables.machineList
  known : ∀ m, s.listener.known = some m → m ∈ s.tables.machineList
  pushing : ∀ m, s.listener.pushing = some m → m ∉ s.tables.machineList
  inserting : ∀ m, s.listener.inserting = some m → m ≠ [] →
    m ∈ s.tables.machineList ∧ m ∉ s.tables.mapMnameIp ∧ m ∉ s.stranded
  stranded : ∀ m ∈ s.stranded, m ∈ s.tables.machineList ∧ m ∉ s.tables.mapMnameIp
  addressed : ∀ m ∈ s.tables.machineList, m ∉ s.tables.mapMnameIp →
    m ∈ s.stranded ∨ s.listener.inserting = some m
  scanned : ∀ m, s.scanner.launching = some m → m ∈ s.tables.machineList

/-- A listed machine has an address unless the listener is about to insert it, or it is
stranded. -/
theorem ThreadsInv.mem_ip_iff {s : Threads} (hs : ThreadsInv s) {m : Bytes}
    (hm : m ∈ s.tables.machineList) :
    m ∈ s.tables.mapMnameIp ↔ s.listener.inserting ≠ some m ∧ m ∉ s.stranded := by
  constructor
  · intro hip
    -- the empty name is never pushed, so it is no exception here
    refine ⟨fun hins => ?_, fun hstr => (hs.stranded m hstr).2 hip⟩
    have hne : m ≠ [] := fun h => hs.named (h ▸ hm)
    exact (hs.inserting m hins hne).2.1 hip
  · rintro ⟨hins, hstr⟩
    by_contra hip
    rcases hs.addressed m hm hip with h | h
    · exact hstr h
    · exact hins h

/-! ### One step -/

section
variable {s t : Threads}

/-- A step of the other threads. -/
theorem ThreadsInv.others (hs : ThreadsInv s)
    (hlist : t.tables.machineList = s.tables.machineList)
    (hip : t.tables.mapMnameIp = s.tables.mapMnameIp) (hpc : t.listener = s.listener)
    (hstr : t.stranded = s.stranded)
    (hscan : ∀ m, t.scanner.launching = some m → m ∈ s.tables.machineList) : ThreadsInv t where
  named := hlist ▸ hs.named
  ip := by rw [hlist, hip]; exact hs.ip
  known := by rw [hpc, hlist]; exact hs.known
  pushing := by rw [hpc, hlist]; exact hs.pushing
  inserting := by rw [hpc, hlist, hip, hstr]; exact hs.inserting
  stranded := by rw [hstr, hlist, hip]; exact hs.stranded
  addressed := by rw [hlist, hip, hstr, hpc]; exact hs.addressed
  scanned := by rw [hlist]; exact hscan

/-- A step of the listener that neither enters nor leaves the gap, and changes no address. -/
theorem ThreadsInv.moves (hs : ThreadsInv s)
    (hlist : t.tables.machineList = s.tables.machineList)
    (hip : t.tables.mapMnameIp = s.tables.mapMnameIp) (hstr : t.stranded = s.stranded)
    (hscan : t.scanner = s.scanner) (hleave : s.listener.inserting = none)
    (henter : t.listener.inserting = none)
    (hknown : ∀ m, t.listener.known = some m → m ∈ s.tables.machineList)
    (hpush : ∀ m, t.listener.pushing = some m → m ∉ s.tables.machineList) : ThreadsInv t where
  named := hlist ▸ hs.named
  ip := by rw [hlist, hip]; exact hs.ip
  known := by rw [hlist]; exact hknown
  pushing := by rw [hlist]; exact hpush
  inserting := by rw [henter]; exact fun m h => nomatch h
  stranded := by rw [hstr, hlist, hip]; exact hs.stranded
  addressed := by
    rw [hlist, hip, hstr, henter, ← hleave]
    exact hs.addressed
  scanned := by rw [hlist, hscan]; exact hs.scanned

/-- In particular, a step to a place that is about no machine of the tables. -/
theorem ThreadsInv.movesOn (hs : ThreadsInv s)
    (hlist : t.tables.machineList = s.tables.machineList)
    (hip : t.tables.mapMnameIp = s.tables.mapMnameIp) (hstr : t.stranded = s.stranded)
    (hscan : t.scanner = s.scanner) (hleave : s.listener.inserting = none)
    (hto : t.listener.known = none ∧ t.listener.pushing = none ∧ t.listener.inserting = none) :
    ThreadsInv t := by
  obtain ⟨hknown, hpush, henter⟩ := hto
  refine hs.moves hlist hip hstr hscan hleave henter ?_ ?_
  · rw [hknown]
    exact fun _ h => nomatch h
  · rw [hpush]
    exact fun _ h => nomatch h

/-- A listed machine gets an entry in MAP_MNAME_IP. -/
theorem ThreadsInv.addresses (hs : ThreadsInv s) {m : Bytes} (hm : m ∈ s.tables.machineList)
    (hleave : s.listener.inserting = none) {ip : Table Bytes Bytes}
    (hkeys : ∀ k, k ∈ ip ↔ k = m ∨ k ∈ s.tables.mapMnameIp) {pc : ListenPc}
    (hknown : pc.known = none) (hpush : pc.pushing = none) (henter : pc.inserting = none) :
    ThreadsInv { s with
      tables := { s.tables with mapMnameIp := ip }
      listener := pc
      stranded := s.stranded.filter (· ≠ m) } where
  named := hs.named
  ip := by
    intro k hk hne
    rcases (hkeys k).mp hk with rfl | hk
    · exact hm
    · exact hs.ip k hk hne
  known := by rw [hknown]; exact fun _ h => nomatch h
  pushing := by rw [hpush]; exact fun _ h => nomatch h
  inserting := by rw [henter]; exact fun _ h => nomatch h
  stranded := by
    intro k hk
    obtain ⟨hk, hne⟩ := List.mem_filter.mp hk
    refine ⟨(hs.stranded k hk).1, fun hip => ?_⟩
    rcases (hkeys k).mp hip with rfl | hip
    · exact absurd rfl (of_decide_eq_true hne)
    · exact (hs.stranded k hk).2 hip
  addressed := by
    intro k hk hip
    rw [hkeys, not_or] at hip
    rcases hs.addressed k hk hip.2 with h | h
    · exact Or.inl (List.mem_filter.mpr ⟨h, decide_eq_true hip.1⟩)
    · rw [hleave] at h
      cases h
  scanned := hs.scanned

/-- The block for a known machine stores an address, or it throws. -/
theorem threadsInv_storeAddress (hs : ThreadsInv s) {again : Bool} {msg : Message}
    (hpc : s.listener = .storeAddress again msg) (c : ListenChoice) :
    ThreadsInv (s.storeAddress again msg c) := by
  have hm : msg.mName ∈ s.tables.machineList := hs.known _ (by rw [hpc]; rfl)
  have hleave : s.listener.inserting = none := by rw [hpc]; rfl
  unfold Threads.storeAddress
  split
  · exact hs.addresses hm hleave (fun k => by simp) (by cases again <;> rfl)
      (by cases again <;> rfl) (by cases again <;> rfl)
  · exact hs.addresses hm hleave (fun k => by simp) rfl rfl rfl
  · exact hs.movesOn rfl rfl rfl rfl hleave ⟨rfl, rfl, rfl⟩

/-- `push_back` opens the gap. -/
theorem threadsInv_push (hs : ThreadsInv s) {msg : Message} (hpc : s.listener = .push msg) :
    ThreadsInv { s with tables := s.tables.pushMachine msg.mName, listener := .insertIp msg } := by
  -- a name that is not listed has neither an address nor a place among the stranded
  have hnew : msg.mName ∉ s.tables.machineList := hs.pushing _ (by rw [hpc]; rfl)
  have hleave : s.listener.inserting = none := by rw [hpc]; rfl
  have hlist : ∀ k, k ∈ (s.tables.pushMachine msg.mName).machineList ↔
      k ∈ s.tables.machineList ∨ k = msg.mName ∧ msg.mName ≠ [] := by
    intro k
    unfold Tables.pushMachine
    cases hname : msg.mName <;> simp
  constructor
  · intro h
    rcases (hlist []).mp h with h | ⟨h, hne⟩
    · exact hs.named h
    · exact hne h.symm
  · intro k hk hne
    rw [pushMachine_mapMnameIp] at hk
    exact (hlist k).mpr (Or.inl (hs.ip k hk hne))
  · exact fun _ h => nomatch h
  · exact fun _ h => nomatch h
  · rintro k ⟨⟩ hne
    refine ⟨(hlist _).mpr (Or.inr ⟨rfl, hne⟩), ?_, fun h => hnew (hs.stranded _ h).1⟩
    rw [pushMachine_mapMnameIp]
    exact fun h => hnew (hs.ip _ h hne)
  · intro k hk
    obtain ⟨hk, hip⟩ := hs.stranded k hk
    rw [pushMachine_mapMnameIp]
    exact ⟨(hlist k).mpr (Or.inl hk), hip⟩
  · intro k hk hip
    rw [pushMachine_mapMnameIp] at hip
    rcases (hlist k).mp hk with hk | ⟨rfl, -⟩
    · rcases hs.addressed k hk hip with h | h
      · exact Or.inl h
      · rw [hleave] at h
        cases h
    · exact Or.inr rfl
  · intro k hk
    exact (hlist k).mpr (Or.inl (hs.scanned k hk))

/-- `insert` closes the gap, and an exception leaves the machine stranded. -/
theorem threadsInv_insertIp (hs : ThreadsInv s) {msg : Message}
    (hpc : s.listener = .insertIp msg) (c : ListenChoice) :
    ThreadsInv (s.insertIp msg c) := by
  have hins := hs.inserting msg.mName (by rw [hpc]; rfl)
  -- only one machine can be in the gap: there is one listener
  have hgap : ∀ k, s.listener.inserting = some k → k = msg.mName := by
    intro k hk
    rw [hpc] at hk
    exact (Option.some.inj hk).symm
  unfold Threads.insertIp
  split
  · constructor
    · exact hs.named
    · intro k hk hne
      rcases (Table.mem_insertNew _ _ _ _).mp hk with rfl | hk
      · exact (hins hne).1
      · exact hs.ip k hk hne
    · exact fun _ h => nomatch h
    · exact fun _ h => nomatch h
    · exact fun _ h => nomatch h
    · intro k hk
      refine ⟨(hs.stranded k hk).1, fun hip => ?_⟩
      rcases (Table.mem_insertNew _ _ _ _).mp hip with rfl | hip
      · have hne : msg.mName ≠ [] := fun h => hs.named (h ▸ (hs.stranded _ hk).1)
        exact (hins hne).2.2 hk
      · exact (hs.stranded k hk).2 hip
    · intro k hk hip
      rw [Table.mem_insertNew, not_or] at hip
      rcases hs.addressed k hk hip.2 with h | h
      · exact Or.inl h
      · exact absurd (hgap k h) hip.1
    · exact hs.scanned
  · have hmem : ∀ k, k ∈ (if msg.mName.isEmpty then s.stranded else msg.mName :: s.stranded) ↔
        k ∈ s.stranded ∨ k = msg.mName ∧ msg.mName ≠ [] := by
      intro k
      cases hname : msg.mName <;> simp [or_comm]
    constructor
    · exact hs.named
    · exact hs.ip
    · exact fun _ h => nomatch h
    · exact fun _ h => nomatch h
    · exact fun _ h => nomatch h
    · intro k hk
      rcases (hmem k).mp hk with hk | ⟨rfl, hne⟩
      · exact hs.stranded k hk
      · exact ⟨(hins hne).1, (hins hne).2.1⟩
    · intro k hk hip
      rcases hs.addressed k hk hip with h | h
      · exact Or.inl ((hmem k).mpr (Or.inl h))
      · obtain rfl := hgap k h
        exact Or.inl ((hmem _).mpr (Or.inr ⟨rfl, fun h0 => hs.named (h0 ▸ hk)⟩))
    · exact hs.scanned

/-- One operation of the listener. -/
theorem threadsInv_listener (hs : ThreadsInv s) {c : ListenChoice}
    (h : listenerStep c s = some t) : ThreadsInv t := by
  unfold listenerStep at h
  cases hpc : s.listener with
  | idle =>
      rw [hpc] at h
      cases h
  | find again msg =>
      rw [hpc] at h
      cases h
      -- the test decides which of the next places is reached, and each relies on its answer
      refine hs.moves rfl rfl rfl rfl (by rw [hpc]; rfl) ?_ ?_ ?_
      · dsimp only
        split_ifs <;> rfl
      · intro m hm
        dsimp only at hm
        split_ifs at hm with hlist
        · cases hm
          exact hlist
        all_goals cases hm
      · intro m hm
        dsimp only at hm
        split_ifs at hm with hlist
        · cases hm
        · cases hm
          exact hlist
        · cases hm
  | testListed again msg =>
      have hm := hs.known msg.mName (by rw [hpc]; rfl)
      rw [hpc] at h
      cases h
      refine hs.moves rfl rfl rfl rfl (by rw [hpc]; rfl) ?_ ?_ ?_
      · dsimp only
        split_ifs <;> rfl
      · intro m hm'
        dsimp only at hm'
        split_ifs at hm' <;> (cases hm'; exact hm)
      · intro m hm'
        dsimp only at hm'
        split_ifs at hm' <;> cases hm'
  | unlist again msg =>
      have hm := hs.known msg.mName (by rw [hpc]; rfl)
      rw [hpc] at h
      cases h
      refine hs.moves rfl rfl rfl rfl (by rw [hpc]; rfl) rfl ?_ (by rintro m ⟨⟩)
      rintro m ⟨⟩
      exact hm
  | storeAddress again msg =>
      rw [hpc] at h
      cases h
      exact threadsInv_storeAddress hs hpc c
  | testFlag msg =>
      rw [hpc] at h
      cases h
      refine hs.movesOn rfl rfl rfl rfl (by rw [hpc]; rfl) ?_
      dsimp only
      split_ifs <;> exact ⟨rfl, rfl, rfl⟩
  | push msg =>
      rw [hpc] at h
      cases h
      exact threadsInv_push hs hpc
  | insertIp msg =>
      rw [hpc] at h
      cases h
      exact threadsInv_insertIp hs hpc c
  | insertBlacklist msg =>
      rw [hpc] at h
      cases h
      exact hs.movesOn rfl rfl rfl rfl (by rw [hpc]; rfl) ⟨rfl, rfl, rfl⟩
  | dbInsert msg =>
      obtain ⟨hlist, hip, -⟩ := dbMachineInsert_containers (s := s.tables) (m := msg.mName) c.db
      rw [hpc] at h
      cases h
      refine hs.movesOn hlist hip rfl rfl (by rw [hpc]; rfl) ?_
      dsimp only
      split_ifs <;> exact ⟨rfl, rfl, rfl⟩
  | sendList msg =>
      rw [hpc] at h
      obtain ⟨r, hsend, rfl⟩ := Option.map_eq_some_iff.mp h
      obtain ⟨hlist, hip, -⟩ := sendList_spec hsend
      refine hs.movesOn hlist hip rfl rfl (by rw [hpc]; rfl) ?_
      dsimp only
      split_ifs <;> exact ⟨rfl, rfl, rfl⟩
  | close =>
      rw [hpc] at h
      cases h
      exact hs.movesOn rfl rfl rfl rfl (by rw [hpc]; rfl) ⟨rfl, rfl, rfl⟩

/-- `gather_task` copies names from the list. -/
theorem threadsInv_scanner (hs : ThreadsInv s) : ThreadsInv (scannerStep s) := by
  unfold scannerStep
  split
  · exact hs.others rfl rfl rfl rfl (by rintro m ⟨⟩)
  · split
    · exact hs.others rfl rfl rfl rfl (by rintro m ⟨⟩)
    · rename_i machine hget
      refine hs.others rfl rfl rfl rfl fun m hm => ?_
      dsimp only at hm
      split_ifs at hm
      · cases hm
        exact List.mem_of_getElem? hget
      · cases hm
  · exact hs.others rfl rfl rfl rfl (by rintro m ⟨⟩)

/-- The first half of `handle_gather` changes no name and no address. -/
theorem beginGather_names {m : Bytes} (h : beginGather s m = some t) :
    t.tables.machineList = s.tables.machineList ∧ t.tables.mapMnameIp = s.tables.mapMnameIp ∧
      t.listener = s.listener ∧ t.stranded = s.stranded ∧ t.scanner = s.scanner ∧
      ∀ k ∈ t.launched, k ∈ s.launched := by
  unfold beginGather at h
  dsimp only at h
  split at h
  · cases h
    exact ⟨rfl, rfl, rfl, rfl, rfl, fun _ => List.mem_of_mem_erase⟩
  · split at h
    · cases h
    · cases h
      exact ⟨rfl, rfl, rfl, rfl, rfl, fun _ => List.mem_of_mem_erase⟩

/-- One action of any thread. -/
theorem threadsInv_step (hs : ThreadsInv s) {a : ServerAction} (h : serverStep s a = some t) :
    ThreadsInv t := by
  cases a with
  | accept data =>
      simp only [serverStep] at h
      split at h
      · rename_i hidle
        cases h
        exact hs.movesOn rfl rfl rfl rfl (by rw [hidle.1]; rfl) ⟨rfl, rfl, rfl⟩
      · cases h
  | listen c => exact threadsInv_listener hs h
  | scan =>
      cases h
      exact threadsInv_scanner hs
  | begin m =>
      simp only [serverStep] at h
      split at h
      · obtain ⟨hlist, hip, hpc, hstr, hscan, -⟩ := beginGather_names h
        exact hs.others hlist hip hpc hstr (hscan ▸ hs.scanned)
      · cases h
  | finish m outcome fuel =>
      simp only [serverStep] at h
      split at h
      · obtain ⟨u, hu, rfl⟩ := Option.map_eq_some_iff.mp h
        obtain ⟨hlist, hip⟩ := finishGather_names hu
        exact hs.others hlist hip rfl rfl hs.scanned
      · cases h

end

theorem threadsInv_start (windowsList linuxList : Table Int Bytes) :
    ThreadsInv (Threads.start windowsList linuxList) where
  named := List.not_mem_nil
  ip := fun _ h => absurd h (AList.notMem_empty _)
  known := fun _ h => nomatch h
  pushing := fun _ h => nomatch h
  inserting := fun _ h => nomatch h
  stranded := fun _ h => absurd h List.not_mem_nil
  addressed := fun _ h => absurd h List.not_mem_nil
  scanned := fun _ h => nomatch h

/-! ### Whole runs -/

/-- If the action starts `handle_gather(m)`, then MAP_MNAME_IP contains `m`. -/
def StartsWithAddress (s : Threads) : ServerAction → Prop
  | .scan => ∀ m ∈ s.scanner.launching, m ∈ s.tables.mapMnameIp
  | _ => True

/-- If the action starts `handle_gather(m)`, then the listener is not between `push_back` and
`insert` for `m`, and no exception cut the registration of `m` short. -/
def StartsRegistered (s : Threads) : ServerAction → Prop
  | .scan => ∀ m ∈ s.scanner.launching, s.listener.inserting ≠ some m ∧ m ∉ s.stranded
  | _ => True

instance (s : Threads) : ∀ a, Decidable (StartsWithAddress s a)
  | .scan => inferInstanceAs (Decidable (∀ m ∈ s.scanner.launching, m ∈ s.tables.mapMnameIp))
  | .accept _ => isTrue trivial
  | .listen _ => isTrue trivial
  | .begin _ => isTrue trivial
  | .finish _ _ _ => isTrue trivial

/-- For every interleaving: every `handle_gather` is started with an address exactly if none is
started for a machine that is being inserted or is stranded. -/
theorem gathered_address_iff (windowsList linuxList : Table Int Bytes)
    (actions : List ServerAction) :
    AllSteps serverStep StartsWithAddress actions (Threads.start windowsList linuxList) ↔
      AllSteps serverStep StartsRegistered actions (Threads.start windowsList linuxList) := by
  refine allSteps_congr (fun _ _ _ hs h => threadsInv_step hs h) (fun s a hs => ?_)
    (threadsInv_start windowsList linuxList)
  cases a with
  -- the only action that starts a thread
  | scan => exact forall₂_congr fun m hm => hs.mem_ip_iff (hs.scanned m hm)
  | _ => exact Iff.rfl

/-- An operation of the listener in which nothing goes wrong. -/
def plainListen : ServerAction := .listen ⟨[ch '7'], .returns, ⟨true, false⟩, false, 1⟩

/-- A machine `pc` calls home, and `gather_task` reaches it before its address is stored. -/
def gapActions : List ServerAction :=
  .accept [ch '1', ch '2', ch 'p', ch 'c'] :: List.replicate 4 plainListen
    ++ List.replicate 3 .scan

/-- `handle_gather` is started without an address. -/
theorem gathered_address_fails :
    ¬ AllSteps serverStep StartsWithAddress gapActions (Threads.start ∅ ∅) := by
  decide

/-! ### The dereference -/

/-- The listener starts no thread and never removes an address. -/
theorem listenerStep_launched {s t : Threads} {c : ListenChoice}
    (h : listenerStep c s = some t) :
    t.launched = s.launched ∧ ∀ m ∈ s.tables.mapMnameIp, m ∈ t.tables.mapMnameIp := by
  unfold listenerStep at h
  -- only the places that touch MAP_MNAME_IP need a word; every write there adds a key
  cases hpc : s.listener <;> rw [hpc] at h
  case idle => cases h
  case storeAddress again msg =>
    cases h
    unfold Threads.storeAddress
    split
    · exact ⟨rfl, fun m hm => (Table.mem_set _ _ _ _).mpr (Or.inr hm)⟩
    · exact ⟨rfl, fun m hm => (Table.mem_touch _ _ _ _).mpr (Or.inr hm)⟩
    · exact ⟨rfl, fun _ hm => hm⟩
  case push msg =>
    cases h
    rw [pushMachine_mapMnameIp]
    exact ⟨rfl, fun _ hm => hm⟩
  case insertIp msg =>
    cases h
    unfold Threads.insertIp
    split
    · exact ⟨rfl, fun m hm => (Table.mem_insertNew _ _ _ _).mpr (Or.inr hm)⟩
    · exact ⟨rfl, fun _ hm => hm⟩
  case dbInsert msg =>
    cases h
    rw [(dbMachineInsert_containers c.db).2.1]
    exact ⟨rfl, fun _ hm => hm⟩
  case sendList msg =>
    obtain ⟨r, hr, rfl⟩ := Option.map_eq_some_iff.mp h
    rw [(sendList_spec hr).2.1]
    exact ⟨rfl, fun _ hm => hm⟩
  all_goals
    cases h
    exact ⟨rfl, fun _ hm => hm⟩

/-- The threads that have been started but have not run yet have an address. -/
def LaunchedAddressed (s : Threads) : Prop := ∀ m ∈ s.launched, m ∈ s.tables.mapMnameIp

/-- A start with an address keeps it that way. -/
theorem launchedAddressed_step {s t : Threads} {a : ServerAction} (hs : LaunchedAddressed s)
    (hstart : StartsWithAddress s a) (h : serverStep s a = some t) : LaunchedAddressed t := by
  cases a with
  | accept data =>
      simp only [serverStep] at h
      split at h
      · cases h
        exact hs
      · cases h
  | listen c =>
      obtain ⟨hlaunched, hip⟩ := listenerStep_launched h
      exact fun m hm => hip m (hs m (hlaunched ▸ hm))
  | scan =>
      cases h
      intro m hm
      unfold scannerStep at hm ⊢
      split at hm
      · exact hs m hm
      · split at hm <;> exact hs m hm
      · rename_i machine hpc
        -- the machine that is launched now is the one the condition is about
        rcases List.mem_append.mp hm with hm | hm
        · exact hs m hm
        · rw [List.mem_singleton.mp hm]
          exact hstart machine (by rw [hpc]; rfl)
  | begin m' =>
      simp only [serverStep] at h
      split at h
      · obtain ⟨-, hip, -, -, -, hlaunched⟩ := beginGather_names h
        intro m hm
        rw [hip]
        exact hs m (hlaunched m hm)
      · cases h
  | finish m' outcome fuel =>
      simp only [serverStep] at h
      split at h
      · obtain ⟨u, hu, rfl⟩ := Option.map_eq_some_iff.mp h
        intro m hm
        exact (finishGather_names hu).2 ▸ hs m hm
      · cases h

/-- Then `it->second` never dereferences `end()`: in a run that starts no `handle_gather` for a
machine that is being inserted or is stranded, every started thread can take its first step. -/
theorem beginGather_defined {windowsList linuxList : Table Int Bytes}
    {actions : List ServerAction} {s : Threads}
    (hok : AllSteps serverStep StartsRegistered actions (Threads.start windowsList linuxList))
    (h : run serverStep actions (Threads.start windowsList linuxList) = some s) :
    ∀ m ∈ s.launched, ∃ t, serverStep s (.begin m) = some t := by
  have hstep : ∀ u a v, ThreadsInv u ∧ LaunchedAddressed u → StartsRegistered u a →
      serverStep u a = some v → ThreadsInv v ∧ LaunchedAddressed v := by
    -- the two conditions agree while the invariant holds
    rintro u a v ⟨hu, hlaunched⟩ hstart hv
    refine ⟨threadsInv_step hu hv, launchedAddressed_step hlaunched ?_ hv⟩
    cases a with
    | scan => exact fun m hm => (hu.mem_ip_iff (hu.scanned m hm)).mpr (hstart m hm)
    | _ => trivial
  have hinv := run_invariant_of_allSteps hstep
    ⟨threadsInv_start windowsList linuxList, fun _ h => absurd h List.not_mem_nil⟩ hok h
  intro m hm
  obtain ⟨address, haddress⟩ := Option.isSome_iff_exists.mp
    (AList.lookup_isSome.mpr (hinv.2 m hm))
  simp only [serverStep, if_pos hm, beginGather, haddress]
  split
  · exact ⟨_, rfl⟩
  · exact ⟨_, rfl⟩

/-! ### An uninterrupted listener -/

/-- The state after operations of the listener alone. -/
def Threads.moved (s : Threads) (tables : Tables) (pc : ListenPc) (stranded : List Bytes) :
    Threads :=
  { s with tables := tables, listener := pc, stranded := stranded }

/-- The listener alone takes the threads to these tables and this place. What it leaves in the
ghost `stranded` is not said. -/
def ListenerRuns (s : Threads) (tables : Tables) (pc : ListenPc) : Prop :=
  ∃ (choices : List ListenChoice) (stranded : List Bytes),
    run serverStep (choices.map .listen) s = some (s.moved tables pc stranded)

section
variable {s : Threads} {tables tables' : Tables} {pc pc' : ListenPc}

theorem ListenerRuns.refl (s : Threads) : ListenerRuns s s.tables s.listener :=
  ⟨[], s.stranded, rfl⟩

/-- One operation, and then the rest. -/
theorem ListenerRuns.cons (c : ListenChoice) {stranded : List Bytes}
    (h : listenerStep c s = some (s.moved tables pc stranded))
    (h' : ListenerRuns (s.moved tables pc stranded) tables' pc') :
    ListenerRuns s tables' pc' := by
  obtain ⟨choices, stranded', hrun⟩ := h'
  refine ⟨c :: choices, stranded', ?_⟩
  rw [List.map_cons, run_cons]
  show (listenerStep c s).bind _ = _
  rw [h]
  exact hrun

/-- Two parts of an execution. -/
theorem ListenerRuns.trans (h : ListenerRuns s tables pc)
    (h' : ∀ stranded, ListenerRuns (s.moved tables pc stranded) tables' pc') :
    ListenerRuns s tables' pc' := by
  obtain ⟨choices, stranded, hrun⟩ := h
  obtain ⟨choices', stranded', hrun'⟩ := h' stranded
  refine ⟨choices ++ choices', stranded', ?_⟩
  rw [List.map_append, run_append, hrun]
  exact hrun'

/-- The tests of the listener. -/
theorem find_step (c : ListenChoice) {again : Bool} {msg : Message}
    (hpc : s.listener = .find again msg) :
    listenerStep c s = some (s.moved s.tables
      (if msg.mName ∈ s.tables.machineList then .testListed again msg
        else if again then .push msg else .testFlag msg) s.stranded) := by
  unfold listenerStep
  rw [hpc]
  rfl

theorem testFlag_step (c : ListenChoice) {msg : Message} (hpc : s.listener = .testFlag msg) :
    listenerStep c s = some (s.moved s.tables
      (if msg.flag = ch '1' then .find true msg else .close) s.stranded) := by
  unfold listenerStep
  rw [hpc]
  rfl

theorem testListed_step (c : ListenChoice) {again : Bool} {msg : Message}
    (hpc : s.listener = .testListed again msg) :
    listenerStep c s = some (s.moved
      { s.tables with blacklist := s.tables.blacklist.touch msg.mName 0 }
      (if (s.tables.blacklist.touch msg.mName 0).read msg.mName 0 = 1 then .unlist again msg
        else .storeAddress again msg) s.stranded) := by
  unfold listenerStep
  rw [hpc]
  rfl

/-- The end of the block for a known machine. -/
theorem storeAddress_run {again : Bool} {msg : Message} (sender : Bytes) (call : EndpointCall)
    (hpc : s.listener = .storeAddress again msg) :
    ListenerRuns s (s.tables.storeAddress msg.mName sender call).tables
      (if (s.tables.storeAddress msg.mName sender call).completed then afterAddress again msg
        else .idle) := by
  let c : ListenChoice := ⟨sender, call, ⟨false, false⟩, false, 0⟩
  have hstep : listenerStep c s = some (s.storeAddress again msg c) := by
    unfold listenerStep
    rw [hpc]
  cases call with
  | returns => exact ListenerRuns.cons c hstep (ListenerRuns.refl _)
  | throws keyMade =>
      cases keyMade with
      | true => exact ListenerRuns.cons c hstep (ListenerRuns.refl _)
      | false => exact ListenerRuns.cons c hstep (ListenerRuns.refl _)

/-- The block for a known machine. -/
theorem refresh_run {again : Bool} {msg : Message} (sender : Bytes) (call : EndpointCall)
    (hpc : s.listener = .testListed again msg) :
    ListenerRuns s (s.tables.refresh msg.mName sender call).tables
      (if (s.tables.refresh msg.mName sender call).completed then afterAddress again msg
        else .idle) := by
  let c : ListenChoice := ⟨sender, call, ⟨false, false⟩, false, 0⟩
  have hstep := testListed_step c hpc
  unfold Tables.refresh
  by_cases hread : (s.tables.blacklist.touch msg.mName 0).read msg.mName 0 = 1
  -- three operations if the entry was 1, two otherwise
  · have hunlist : s.tables.unlist msg.mName = { s.tables with
        blacklist := (s.tables.blacklist.touch msg.mName 0).set msg.mName 0 } := if_pos hread
    rw [if_pos hread] at hstep
    rw [hunlist]
    exact ListenerRuns.cons c hstep (ListenerRuns.cons c rfl (storeAddress_run sender call rfl))
  · have hunlist : s.tables.unlist msg.mName = { s.tables with
        blacklist := s.tables.blacklist.touch msg.mName 0 } := if_neg hread
    rw [if_neg hread] at hstep
    rw [hunlist]
    exact ListenerRuns.cons c hstep (storeAddress_run sender call rfl)

/-- The block for a new machine. -/
theorem register_run {msg : Message} (sender : Bytes) (call : EndpointCall) (db : DbInsert)
    (hpc : s.listener = .push msg) :
    ListenerRuns s (s.tables.register msg.mName sender call db).tables
      (if (s.tables.register msg.mName sender call db).completed then .sendList msg
        else .idle) := by
  let c : ListenChoice := ⟨sender, call, db, false, 0⟩
  have hstep : listenerStep c s
      = some (s.moved (s.tables.pushMachine msg.mName) (.insertIp msg) s.stranded) := by
    unfold listenerStep
    rw [hpc]
    rfl
  -- `remote_endpoint()` throws before anything is inserted
  refine ListenerRuns.cons c hstep ?_
  cases call with
  | throws keyMade => exact ListenerRuns.cons c rfl (ListenerRuns.refl _)
  | returns =>
      -- `insert`, `insert`, `db_machine_insert`
      exact ListenerRuns.cons c rfl (ListenerRuns.cons c rfl (ListenerRuns.cons c rfl
        (ListenerRuns.refl _)))

/-- The program list, and the end. -/
theorem sendList_run {msg : Message} {throws closeThrows : Bool} {fuel : Nat} {h h' : Handled}
    (hpc : s.listener = .sendList msg)
    (hsend : s.tables.sendList msg.os throws fuel = some h)
    (hclose : (if h.completed then h.close closeThrows else h) = h') :
    ListenerRuns s h'.tables .idle := by
  let c : ListenChoice := ⟨[], .returns, ⟨false, false⟩, throws, fuel⟩
  have hstep : listenerStep c s
      = some (s.moved h.tables (if h.completed then .close else .idle) s.stranded) := by
    unfold listenerStep
    rw [hpc]
    show Option.map _ (s.tables.sendList msg.os throws fuel) = _
    rw [hsend]
    rfl
  refine ListenerRuns.cons c hstep ?_
  rw [← hclose]
  cases h.completed with
  | true => exact ListenerRuns.cons c rfl (ListenerRuns.refl _)
  | false => exact ListenerRuns.refl _

/-- The first test, and either block, up to the program list. -/
theorem callHome_run (call : ListenCall) {msg : Message} (hpc : s.listener = .find true msg) :
    ListenerRuns s (s.tables.callHome call msg.mName).tables
      (if (s.tables.callHome call msg.mName).completed then .sendList msg else .idle) := by
  let c : ListenChoice := ⟨[], .returns, ⟨false, false⟩, false, 0⟩
  have hstep := find_step c hpc
  unfold Tables.callHome
  by_cases hm : msg.mName ∈ s.tables.machineList
  · rw [if_pos hm] at hstep ⊢
    have hblock := refresh_run (s := s.moved s.tables (.testListed true msg) s.stranded)
      call.sender (call.endpoint 1) rfl
    exact ListenerRuns.cons c hstep hblock
  · rw [if_neg hm] at hstep ⊢
    exact ListenerRuns.cons c hstep (register_run call.sender (call.endpoint 0) call.db rfl)

/-- The part after the first test. -/
theorem handleFlag_run {call : ListenCall} (msg : Message) {fuel : Nat} {h : Handled}
    (hpc : s.listener = .testFlag msg)
    (hrun : handleFlag call msg.flag msg.os msg.mName fuel s.tables = some h) :
    ListenerRuns s h.tables .idle := by
  let c : ListenChoice := ⟨[], .returns, ⟨false, false⟩, false, 0⟩
  have hstep := testFlag_step c hpc
  unfold handleFlag at hrun
  by_cases hflag : msg.flag = ch '1'
  · rw [if_pos hflag] at hstep
    refine ListenerRuns.cons c hstep ((callHome_run call rfl).trans fun stranded => ?_)
    rw [if_pos hflag] at hrun
    dsimp only at hrun
    show ListenerRuns ((s.moved s.tables (.find true msg) s.stranded).moved
      (s.tables.callHome call msg.mName).tables
      (if (s.tables.callHome call msg.mName).completed then .sendList msg else .idle)
      stranded) h.tables .idle
    cases hc : (s.tables.callHome call msg.mName).completed with
    | true =>
        rw [if_pos hc] at hrun
        obtain ⟨h', hsend, hclose⟩ := Option.map_eq_some_iff.mp hrun
        exact sendList_run rfl hsend hclose
    | false =>
        rw [hc] at hrun
        cases hrun
        exact ListenerRuns.refl _
  · rw [if_neg hflag] at hstep hrun
    cases hrun
    exact ListenerRuns.cons c hstep (ListenerRuns.cons c rfl (ListenerRuns.refl _))

/-- An execution of `handle_listen` without interruption is a run of the listener, from the
message to its end, and has the tables of `handleMessage`. -/
theorem handleMessage_run {call : ListenCall} {data : Bytes} {fuel : Nat} {h : Handled}
    (hidle : s.listener = .idle) (hlong : 2 ≤ (cstr data).length)
    (hrun : handleMessage call data fuel s.tables = some h) :
    ∃ t, serverStep s (.accept data) = some t ∧ ListenerRuns t h.tables .idle := by
  let c : ListenChoice := ⟨[], .returns, ⟨false, false⟩, false, 0⟩
  let msg : Message := ⟨data.getD 0 0, data.getD 1 0, (cstr data).drop 2⟩
  refine ⟨s.moved s.tables (.find false msg) s.stranded, if_pos ⟨hidle, hlong⟩, ?_⟩
  have hstep := find_step (s := s.moved s.tables (.find false msg) s.stranded) c rfl
  unfold handleMessage at hrun
  rw [if_neg (by omega)] at hrun
  dsimp only at hrun
  by_cases hm : msg.mName ∈ s.tables.machineList
  · rw [if_pos hm] at hrun
    rw [if_pos (show msg.mName ∈ (s.moved s.tables (.find false msg) s.stranded).tables.machineList
      from hm)] at hstep
    refine ListenerRuns.cons c hstep
      ((refresh_run call.sender (call.endpoint 0) rfl).trans fun stranded => ?_)
    show ListenerRuns ((s.moved s.tables (.testListed false msg) s.stranded).moved
      (s.tables.refresh msg.mName call.sender (call.endpoint 0)).tables
      (if (s.tables.refresh msg.mName call.sender (call.endpoint 0)).completed then .testFlag msg
        else .idle) stranded) h.tables .idle
    cases hc : (s.tables.refresh msg.mName call.sender (call.endpoint 0)).completed with
    | true =>
        rw [if_pos hc] at hrun
        exact handleFlag_run msg rfl hrun
    | false =>
        rw [if_neg (by rw [hc]; exact Bool.false_ne_true)] at hrun
        cases hrun
        exact ListenerRuns.refl _
  · rw [if_neg hm] at hrun
    rw [if_neg (show msg.mName ∉ (s.moved s.tables (.find false msg) s.stranded).tables.machineList
      from hm)] at hstep
    exact ListenerRuns.cons c hstep (handleFlag_run msg rfl hrun)

end

end Monitoring.Server
