import Monitoring.Proofs.RegistryThreads

/-!
# `Monitoring.Proofs.Blacklist`: blacklisted machines and their status

A `handle_gather` that fails sets BLACKLIST to 1 and MAP_MNAME_STATUS to 3, offline. Several of
them can wait for one machine, and one that started before may succeed after the failure. It then
writes the status alone, and the machine stays blacklisted: `gather_task` does not ask it again.

`Offline` says that every blacklisted machine is shown as offline. No action of `listen_task`, of
`gather_task` or of a failing `handle_gather` breaks it; `Tables.Harmless` is what they have in
common. The answer of a machine does exactly if the machine is blacklisted when it arrives
(`offline_response_iff`), so `offline_iff` can say for every interleaving when the property holds.

The end of an exchange is one action: both entries of a failed exchange, and all that an answer
writes.
-/

set_option autoImplicit false

namespace Monitoring.Server

open Monitoring.Lib

/-- Every blacklisted machine has the status 3. -/
def Offline (s : Tables) : Prop :=
  ∀ m, s.blacklist.lookup m = some 1 → s.mapMnameStatus.lookup m = some 3

/-- Nobody is blacklisted, and nobody comes back from offline. -/
structure Tables.Harmless (s t : Tables) : Prop where
  blacklist : ∀ m, t.blacklist.lookup m = some 1 → s.blacklist.lookup m = some 1
  status : ∀ m, s.mapMnameStatus.lookup m = some 3 → t.mapMnameStatus.lookup m = some 3

section
variable {s t u : Tables}

theorem Offline.harmless (hs : Offline s) (h : s.Harmless t) : Offline t := by
  intro m hm
  exact h.status m (hs m (h.blacklist m hm))

theorem Tables.Harmless.of_eq (hblack : t.blacklist = s.blacklist)
    (hstatus : t.mapMnameStatus = s.mapMnameStatus) : s.Harmless t where
  blacklist := by rw [hblack]; exact fun _ h => h
  status := by rw [hstatus]; exact fun _ h => h

/-- A table whose new entries are all 0. -/
theorem lookup_touch_zero {b : Table Bytes Int} {k m : Bytes} {v : Int} (hv : v ≠ 0) :
    (b.touch k 0).lookup m = some v ↔ b.lookup m = some v := by
  rw [Table.lookup_touch]
  split
  · rename_i hnew
    -- the entry is new, and it is 0
    have hnone : b.lookup m = none := by
      rw [hnew.1]
      exact AList.lookup_eq_none.mpr hnew.2
    rw [hnone]
    simp [hv.symm]
  · exact Iff.rfl

theorem Tables.Harmless.touchBlacklist (k : Bytes) :
    s.Harmless { s with blacklist := s.blacklist.touch k 0 } where
  blacklist := fun _ h => (lookup_touch_zero (by decide)).mp h
  status := fun _ h => h

theorem Tables.Harmless.unlisted (k : Bytes) :
    s.Harmless { s with blacklist := s.blacklist.set k 0 } where
  blacklist := by
    intro m h
    rw [Table.lookup_set] at h
    split at h
    · cases h
    · exact h
  status := fun _ h => h

theorem Tables.Harmless.dbMachineInsert (m : Bytes) (db : DbInsert) :
    s.Harmless (s.dbMachineInsert m db).tables where
  blacklist := by
    rw [(dbMachineInsert_containers db).2.2]
    exact fun _ h => h
  status := by
    intro k h
    show (if db.readsStatus then { s with mapMnameStatus := s.mapMnameStatus.touch m 0 }
      else s).mapMnameStatus.lookup k = some 3
    split
    · exact (lookup_touch_zero (by decide)).mpr h
    · exact h

end

/-! ### `handle_listen` and `gather_task` -/

/-- The listener only takes machines off the blacklist. -/
theorem listenerStep_harmless {s t : Threads} {c : ListenChoice} (h : listenerStep c s = some t) :
    s.tables.Harmless t.tables := by
  unfold listenerStep at h
  cases hpc : s.listener <;> rw [hpc] at h
  case idle => cases h
  case testListed again msg =>
    cases h
    exact .touchBlacklist msg.mName
  case unlist again msg =>
    cases h
    exact .unlisted msg.mName
  case storeAddress again msg =>
    cases h
    unfold Threads.storeAddress
    split <;> exact .of_eq rfl rfl
  case push msg =>
    cases h
    refine .of_eq (pushMachine_blacklist ..) ?_
    unfold Tables.pushMachine
    dsimp only
    split <;> rfl
  case insertIp msg =>
    cases h
    unfold Threads.insertIp
    split <;> exact .of_eq rfl rfl
  case insertBlacklist msg =>
    cases h
    exact .touchBlacklist msg.mName
  case dbInsert msg =>
    cases h
    exact .dbMachineInsert msg.mName c.db
  case sendList msg =>
    obtain ⟨r, hr, rfl⟩ := Option.map_eq_some_iff.mp h
    obtain ⟨windowsList, linuxList, htables⟩ := sendList_lists hr
    rw [htables]
    exact .of_eq rfl rfl
  all_goals
    cases h
    exact .of_eq rfl rfl

/-- `gather_task` only reads BLACKLIST. -/
theorem scannerStep_harmless (s : Threads) : s.tables.Harmless (scannerStep s).tables := by
  unfold scannerStep
  split
  · exact .of_eq rfl rfl
  · split
    · exact .of_eq rfl rfl
    · exact .touchBlacklist _
  · exact .of_eq rfl rfl

/-- So does `handle_gather` before it asks. -/
theorem beginGather_harmless {s t : Threads} {m : Bytes} (h : beginGather s m = some t) :
    s.tables.Harmless t.tables := by
  unfold beginGather at h
  dsimp only at h
  split at h
  · cases h
    exact .touchBlacklist m
  · split at h
    · cases h
    · cases h
      exact .touchBlacklist m

/-! ### The status after a response -/

section
variable {env : ParseEnv} {data : Memory} {machine : Bytes} {st st' : ParseState}

/-- No status changes but that of the machine, and that one not from 1. -/
def KeepsLogin (machine : Bytes) (st st' : ParseState) : Prop :=
  ∀ m v, (m = machine → v = 1) → st.mapMnameStatus.lookup m = some v →
    st'.mapMnameStatus.lookup m = some v

theorem keepsLogin_checkTimestamp (l : Int) :
    KeepsLogin machine st (checkTimestamp env data machine l st) := by
  intro m v hv h
  unfold checkTimestamp
  dsimp only
  split
  · rw [Table.lookup_set]
    split
    · rw [hv ‹_›]
    · exact h
  · exact h

theorem keepsLogin_parseBlock {user : Bytes} (l start : Int) (i : Nat) :
    KeepsLogin machine st (parseBlock env data machine user l start st i) := by
  unfold parseBlock
  intro m v hv h
  dsimp only
  split
  · exact keepsLogin_checkTimestamp l m v hv h
  · exact keepsLogin_checkTimestamp l m v hv h

/-- The blocks of a frame. -/
theorem keepsLogin_parseFrame (s : LoopState) :
    KeepsLogin machine s.st (parseFrame env data machine s).st := by
  unfold parseFrame
  dsimp only
  refine List.foldlRecOn (motive := fun st' => KeepsLogin machine s.st st') _ _
    (fun _ _ _ h => h) fun st' hst' i _ m v hv h => ?_
  exact keepsLogin_parseBlock _ _ i m v hv (hst' m v hv h)

theorem keepsLogin_parseZeroBlock : KeepsLogin machine st (parseZeroBlock env data machine st) := by
  intro m v hv h
  unfold parseZeroBlock ParseState.push
  dsimp only
  generalize u64 _ = l
  exact keepsLogin_checkTimestamp l m v hv h

/-- Both branches of the decoder. -/
theorem keepsLogin_parseEventBlock {fuel : Nat}
    (h : parseEventBlock env data machine fuel st = some st') : KeepsLogin machine st st' := by
  unfold parseEventBlock at h
  split at h
  · rw [← Option.some.inj h]
    exact keepsLogin_parseZeroBlock
  · obtain ⟨s, hloop, rfl⟩ := Option.map_eq_some_iff.mp h
    have hpass : ∀ s, KeepsLogin machine st s.st →
        KeepsLogin machine st (parseFrame env data machine s).st := by
      intro s hs m v hv h
      exact keepsLogin_parseFrame s m v hv (hs m v hv h)
    exact whileFuel_invariant hpass (fun _ _ _ h => h) hloop

end

/-- The machine answers that nobody is logged in, or with frames. -/
def Answered (rBuffer : Bytes) : Prop :=
  rBuffer.head? = some (ch '8') ∨ rBuffer.head? = some (ch '2')

instance (rBuffer : Bytes) : Decidable (Answered rBuffer) := inferInstanceAs (Decidable (_ ∨ _))

section
variable {s t : Tables} {m rBuffer : Bytes} {env : ParseEnv} {outside : Int → Byte} {fuel : Nat}

/-- What a response does to the statuses: the machine is not offline if it has answered, and
nothing changes otherwise. -/
theorem response_status
    (h : (s.noteResponse m rBuffer).decode m rBuffer env outside fuel = some t) :
    (Answered rBuffer → t.mapMnameStatus.lookup m ≠ some 3) ∧
    ∀ k, (k = m → ¬ Answered rBuffer) → s.mapMnameStatus.lookup k = some 3 →
      t.mapMnameStatus.lookup k = some 3 := by
  obtain ⟨p, hp, rfl⟩ := Option.map_eq_some_iff.mp h
  unfold decodeResponse at hp
  by_cases h8 : rBuffer.head? = some (ch '8')
  · have h2 : rBuffer.head? ≠ some (ch '2') := by
      rw [h8]
      decide
    have hnote : s.noteResponse m rBuffer =
        { s with mapMnameStatus := s.mapMnameStatus.set m 2 } := if_pos h8
    rw [if_neg h2, hnote] at hp
    cases hp
    dsimp only
    refine ⟨fun _ => by rw [Table.lookup_set, if_pos rfl]; decide, fun k hk h3 => ?_⟩
    have hne : k ≠ m := fun hkm => hk hkm (Or.inl h8)
    rw [Table.lookup_set, if_neg hne]
    exact h3
  · by_cases h2 : rBuffer.head? = some (ch '2')
    · have hnote : s.noteResponse m rBuffer =
          { s with mapMnameStatus := s.mapMnameStatus.set m 1 } :=
        (if_neg h8).trans (if_pos h2)
      rw [if_pos h2, hnote] at hp
      have hkeeps := keepsLogin_parseEventBlock hp
      dsimp only at hkeeps ⊢
      constructor
      · intro _
        -- the status is 1 before the decoder runs, and it stays
        rw [hkeeps m 1 (fun _ => rfl) (by rw [Table.lookup_set, if_pos rfl])]
        decide
      · intro k hk h3
        have hne : k ≠ m := fun hkm => hk hkm (Or.inr h2)
        refine hkeeps k 3 (fun hkm => absurd hkm hne) ?_
        rw [Table.lookup_set, if_neg hne]
        exact h3
    · have hnote : s.noteResponse m rBuffer = s := (if_neg h8).trans (if_neg h2)
      rw [if_neg h2, hnote] at hp
      cases hp
      exact ⟨fun hanswered => (hanswered.elim h8 h2).elim, fun _ _ h3 => h3⟩

/-- An answer keeps the property exactly if the machine is not blacklisted. -/
theorem offline_response_iff (hs : Offline s)
    (h : (s.noteResponse m rBuffer).decode m rBuffer env outside fuel = some t) :
    Offline t ↔ (Answered rBuffer → s.blacklist.lookup m ≠ some 1) := by
  obtain ⟨hanswered, hkept⟩ := response_status h
  have hblack : t.blacklist = s.blacklist := (decode_containers h).2.2
  constructor
  · intro ht ha hm
    rw [← hblack] at hm
    exact hanswered ha (ht m hm)
  · intro hok k hk
    rw [hblack] at hk
    refine hkept k (fun hkm ha => ?_) (hs k hk)
    exact hok ha (hkm ▸ hk)

/-- A failed exchange writes both entries. -/
theorem Offline.offline (hs : Offline s) : Offline (s.offline m) := by
  intro k hk
  unfold Tables.offline at hk ⊢
  dsimp only at hk ⊢
  rw [Table.lookup_set] at hk ⊢
  split
  · rfl
  · rename_i hne
    rw [if_neg hne] at hk
    exact hs k hk

end

/-! ### Interleavings -/

/-- If the action is the arrival of an answer, then the machine is not blacklisted. -/
def AnswersListed (s : Threads) : ServerAction → Prop
  | .finish m (.response rBuffer _ _) _ =>
      Answered rBuffer → s.tables.blacklist.lookup m ≠ some 1
  | _ => True

/-- One action of any thread. -/
theorem offline_step_iff {s t : Threads} {a : ServerAction} (hs : Offline s.tables)
    (h : serverStep s a = some t) : Offline t.tables ↔ AnswersListed s a := by
  cases a with
  | accept data =>
      simp only [serverStep] at h
      split at h
      · cases h
        exact iff_of_true hs trivial
      · cases h
  | listen c => exact iff_of_true (hs.harmless (listenerStep_harmless h)) trivial
  | scan =>
      cases h
      exact iff_of_true (hs.harmless (scannerStep_harmless s)) trivial
  | begin m =>
      simp only [serverStep] at h
      split at h
      · exact iff_of_true (hs.harmless (beginGather_harmless h)) trivial
      · cases h
  | finish m outcome fuel =>
      simp only [serverStep] at h
      split at h
      · obtain ⟨u, hu, rfl⟩ := Option.map_eq_some_iff.mp h
        cases outcome with
        | resolveThrows => cases hu
        | timedOut => cases hu; exact iff_of_true hs.offline trivial
        | connectionRefused => cases hu; exact iff_of_true hs.offline trivial
        | hostUnreachable => cases hu; exact iff_of_true hs.offline trivial
        | otherError => cases hu; exact iff_of_true hs trivial
        | response rBuffer env outside => exact offline_response_iff hs hu
      · cases h

/-- For every interleaving: every blacklisted machine is always shown as offline exactly if no
answer arrives from a machine that is blacklisted at that moment. -/
theorem offline_iff (windowsList linuxList : Table Int Bytes) (actions : List ServerAction) :
    AllSteps serverStep (fun s a => ∀ t, serverStep s a = some t → Offline t.tables) actions
        (Threads.start windowsList linuxList) ↔
      AllSteps serverStep (fun s a => ∀ t, serverStep s a = some t → AnswersListed s a) actions
        (Threads.start windowsList linuxList) :=
  allSteps_kept_iff (P := fun s => Offline s.tables) (fun _ _ _ hs h => offline_step_iff hs h)
    fun m hm => by simp [Threads.start, Tables.empty] at hm

/-- A machine `pc` registers. -/
def registerActions : List ServerAction :=
  .accept [ch '1', ch '2', ch 'p', ch 'c'] :: List.replicate 9 plainListen

/-- Two scans find it, so two `handle_gather` wait for it. The second one times out, and then the
first one gets its answer. -/
def lateAnswer : List ServerAction :=
  registerActions ++ List.replicate 3 .scan ++ [.begin [ch 'p', ch 'c']] ++
    List.replicate 4 .scan ++ [.begin [ch 'p', ch 'c'],
      .finish [ch 'p', ch 'c'] .timedOut 0,
      .finish [ch 'p', ch 'c'] (.response [ch '8'] ⟨fun _ => 0, [], [], []⟩ fun _ => 0) 0]

/-- The machine is blacklisted, and shown as logged out. -/
theorem offline_fails :
    ∃ s, run serverStep lateAnswer (Threads.start ∅ ∅) = some s ∧
      s.tables.blacklist.lookup [ch 'p', ch 'c'] = some 1 ∧
      s.tables.mapMnameStatus.lookup [ch 'p', ch 'c'] = some 2 :=
  ⟨_, rfl, by decide, by decide⟩

end Monitoring.Server
