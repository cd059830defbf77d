import Mathlib.Data.Int.Interval
import Monitoring.Client.CallHome
import Monitoring.Proofs.Registry

/-!
# `Monitoring.Proofs.Distribution`: program lists keep their positions

`current_prog_setup` fills the keys 1 to `max_bit` of a program list. The loop of `handle_listen`
starts at key 0 and compares with a size that grows while it runs: `operator[]` inserts the key 0
when the list is sent for the first time. So it goes through the keys 0 to `max_bit` in any case,
and the text starts with a comma, which the client drops.

`SetUp` is what a list is before it was ever sent, and `Served` what it is afterwards.
`joinList_served` runs the loop on either, and `programList_positions` is the statement for every
sequence of executions of the server. An exception may come before the list is sent; where none does
(`ListenCall.Quiet`), it is sent.
-/

set_option autoImplicit false

namespace Monitoring.Server

open Monitoring.Lib
open Client (receivedList splitList)

/-- A program list as `current_prog_setup` leaves it: the names stand under the keys 1, 2, ... -/
structure SetUp (list : Table Int Bytes) (names : List Bytes) : Prop where
  nonempty : names ≠ []
  plain : ∀ name ∈ names, ch ',' ∉ name ∧ 0 ∉ name
  lookup : ∀ k : Int, list.lookup k = if 1 ≤ k then names[(k - 1).toNat]? else none

/-- A program list that may have been sent before. -/
def Served (list served : Table Int Bytes) : Prop := served = list ∨ served = list.touch 0 []

/-! ### The loop -/

section
variable {list served : Table Int Bytes} {names : List Bytes}

/-- The text of the names, each behind a comma. -/
def listText (names : List Bytes) : Bytes := names.flatMap fun name => ch ',' :: name

theorem SetUp.not_mem_zero (h : SetUp list names) : (0 : Int) ∉ list := by
  rw [← AList.lookup_eq_none, h.lookup 0]
  rfl

/-- The keys of the list are 1 to the number of names. -/
theorem SetUp.mem_iff (h : SetUp list names) (k : Int) :
    k ∈ list ↔ 1 ≤ k ∧ k ≤ names.length := by
  rw [← AList.lookup_isSome, h.lookup k]
  split
  · rename_i hk
    rw [isSome_getElem?]
    omega
  · rename_i hk
    simp [hk]

/-- The size of the list. -/
theorem SetUp.length_entries (h : SetUp list names) : list.entries.length = names.length := by
  have hkeys : list.keys.toFinset = Finset.Icc (1 : Int) names.length := by
    ext k
    rw [List.mem_toFinset, Finset.mem_Icc, ← h.mem_iff k]
    exact AList.mem_keys.symm
  have hcard := List.toFinset_card_of_nodup list.keys_nodup
  rw [hkeys, Int.card_Icc] at hcard
  have hlength : list.keys.length = list.entries.length := by
    show (list.entries.map Sigma.fst).length = list.entries.length
    exact List.length_map ..
  omega

/-- The list after it was sent: the key 0 stands in front of the others. -/
theorem SetUp.lookup_touch (h : SetUp list names) (k : Nat) :
    (list.touch 0 []).lookup (k : Int) = if k = 0 then some [] else names[k - 1]? := by
  rw [Table.lookup_touch, h.lookup k]
  by_cases hk : k = 0
  · rw [if_pos ⟨by omega, h.not_mem_zero⟩, if_pos hk]
  · rw [if_neg (by omega), if_neg hk, if_pos (by omega)]
    congr 1
    omega

/-- It is longer by one. -/
theorem SetUp.length_touch (h : SetUp list names) :
    (list.touch 0 []).entries.length = names.length + 1 := by
  unfold Table.touch Table.insertNew
  rw [if_neg h.not_mem_zero]
  show (List.kinsert (0 : Int) [] list.entries).length = names.length + 1
  rw [List.kinsert_def, List.length_cons, List.kerase_of_notMem_keys, h.length_entries]
  exact h.not_mem_zero

/-- Sending a list again does not change it. -/
theorem Served.touch (h : Served list served) : served.touch 0 [] = list.touch 0 [] := by
  rcases h with rfl | rfl
  · rfl
  · exact if_pos ((Table.mem_touch _ _ _ _).mpr (Or.inl rfl))

/-- The states of the loop: at its start, and where it tests the key `k + 1`. -/
def joinStates (list served : Table Int Bytes) (names : List Bytes) : Nat → JoinState
  | 0 => ⟨0, [], served⟩
  | k + 1 => ⟨(k + 1 : Nat), listText (names.take k), list.touch 0 []⟩

/-- The first pass inserts the key 0 if it is not there, and adds no text. -/
theorem joinPass_first (h : SetUp list names) (hs : Served list served) :
    joinPass ⟨0, [], served⟩ = ⟨1, [], list.touch 0 []⟩ := by
  have hread : served.read 0 [] = [] := by
    show (served.lookup 0).getD [] = []
    rcases hs with rfl | rfl
    · rw [AList.lookup_eq_none.mpr h.not_mem_zero, Option.getD_none]
    · have hzero := h.lookup_touch 0
      rw [if_pos rfl] at hzero
      exact congrArg (Option.getD · []) hzero
  unfold joinPass
  rw [hread, hs.touch]
  rfl

/-- Every other pass adds a comma and the name under its key. -/
theorem joinPass_next (h : SetUp list names) {k : Nat} (hk : k < names.length) :
    joinPass ⟨(k + 1 : Nat), listText (names.take k), list.touch 0 []⟩
      = ⟨(k + 2 : Nat), listText (names.take (k + 1)), list.touch 0 []⟩ := by
  have hlookup : (list.touch 0 []).lookup ((k + 1 : Nat) : Int) = some names[k] := by
    rw [h.lookup_touch (k + 1), if_neg (Nat.succ_ne_zero k)]
    exact List.getElem?_eq_getElem hk
  have hread : (list.touch 0 []).read ((k + 1 : Nat) : Int) [] = names[k] := by
    show ((list.touch 0 []).lookup ((k + 1 : Nat) : Int)).getD [] = names[k]
    rw [hlookup, Option.getD_some]
  have hmem : ((k + 1 : Nat) : Int) ∈ list.touch 0 [] := by
    rw [← AList.lookup_isSome, hlookup]
    rfl
  have htouch : (list.touch 0 []).touch ((k + 1 : Nat) : Int) [] = list.touch 0 [] := if_pos hmem
  unfold joinPass
  dsimp only
  rw [hread, htouch, if_pos (by omega), List.take_add_one, List.getElem?_eq_getElem hk]
  rw [JoinState.mk.injEq]
  refine ⟨by omega, ?_, rfl⟩
  show listText (names.take k) ++ [ch ','] ++ names[k] = listText (names.take k ++ [names[k]])
  unfold listText
  rw [List.flatMap_append, List.append_assoc]
  simp

/-- The loop sends the names, whether the list was sent before or not. -/
theorem joinList_served (h : SetUp list names) (hs : Served list served) {fuel : Nat}
    (hfuel : names.length + 1 ≤ fuel) :
    joinList fuel served = some ⟨(names.length + 1 : Nat), listText names, list.touch 0 []⟩ := by
  have hlast : joinStates list served names (names.length + 1)
      = ⟨(names.length + 1 : Nat), listText names, list.touch 0 []⟩ := by
    show (⟨_, listText (names.take names.length), _⟩ : JoinState) = _
    rw [List.take_length]
  rw [← hlast]
  refine whileFuel_states (s := joinStates list served names) (fun i hi => ?_) ?_ hfuel
  · cases i with
    | zero =>
        refine ⟨?_, joinPass_first h hs⟩
        have hpos : 0 < names.length := List.length_pos_iff.mpr h.nonempty
        have hsize : names.length ≤ served.entries.length := by
          rcases hs with rfl | rfl
          · exact h.length_entries.ge
          · rw [h.length_touch]
            exact Nat.le_succ _
        refine decide_eq_true ?_
        show (0 : Int) < served.entries.length
        omega
    | succ k =>
        refine ⟨?_, joinPass_next h (by omega)⟩
        refine decide_eq_true ?_
        show ((k + 1 : Nat) : Int) < (list.touch 0 []).entries.length
        rw [h.length_touch]
        omega
  · refine decide_eq_false ?_
    show ¬ ((names.length + 1 : Nat) : Int) < (list.touch 0 []).entries.length
    rw [h.length_touch]
    omega

end

/-! ### The client -/

/-- Behind the first byte the names are separated by commas. -/
theorem listText_eq (names : List Bytes) (hne : names ≠ []) :
    listText names = ch ',' :: [ch ','].intercalate names := by
  induction names with
  | nil => exact absurd rfl hne
  | cons name names ih =>
      cases names with
      | nil => simp [listText]
      | cons name' names =>
          have ih' := ih (List.cons_ne_nil _ _)
          unfold listText at ih' ⊢
          rw [List.flatMap_cons, ih', List.intercalate_cons_cons]
          simp

/-- What the client makes of the text. -/
theorem splitList_listText {names : List Bytes} (hne : names ≠ [])
    (hplain : ∀ name ∈ names, ch ',' ∉ name) :
    (receivedList (listText names)).map splitList = some names := by
  unfold receivedList
  rw [listText_eq names hne, if_neg (by simp)]
  show some (([ch ','].intercalate names).splitOn (ch ',')) = some names
  rw [List.splitOn_intercalate (ch ',') hplain hne]

/-! ### Executions of `handle_listen` -/

/-- The list for an operating system: '1' is Windows, '2' is Linux. -/
def Tables.listOf (s : Tables) (os : Byte) : Table Int Bytes :=
  if os = ch '1' then s.windowsList else s.linuxList

/-- Both program lists are the same. -/
structure SameLists (s t : Tables) : Prop where
  windows : t.windowsList = s.windowsList
  linux : t.linuxList = s.linuxList

section
variable {s t u : Tables} {m sender : Bytes} {os : Byte}

theorem SameLists.refl : SameLists s s := ⟨rfl, rfl⟩

theorem SameLists.trans (h : SameLists s t) (h' : SameLists t u) : SameLists s u where
  windows := h'.windows.trans h.windows
  linux := h'.linux.trans h.linux

theorem SameLists.listOf (h : SameLists s t) (os : Byte) : t.listOf os = s.listOf os := by
  unfold Tables.listOf
  rw [h.windows, h.linux]

theorem refresh_lists (call : EndpointCall) :
    SameLists s (s.refresh m sender call).tables ∧ (s.refresh m sender call).reply = none := by
  have hunlist : SameLists s (s.unlist m) := by
    unfold Tables.unlist
    dsimp only
    split <;> exact ⟨rfl, rfl⟩
  unfold Tables.refresh Tables.storeAddress
  split <;> exact ⟨⟨hunlist.windows, hunlist.linux⟩, rfl⟩

theorem register_lists (call : EndpointCall) (db : DbInsert) :
    SameLists s (s.register m sender call db).tables ∧
      (s.register m sender call db).reply = none := by
  have hpush : SameLists s (s.pushMachine m) := by
    unfold Tables.pushMachine
    split <;> exact ⟨rfl, rfl⟩
  unfold Tables.register
  dsimp only
  split
  · unfold Tables.dbMachineInsert
    dsimp only
    split <;> exact ⟨⟨hpush.windows, hpush.linux⟩, rfl⟩
  · exact ⟨hpush, rfl⟩

/-- The block of a call-home leaves the lists alone, and sends nothing. -/
theorem callHome_lists (call : ListenCall) :
    SameLists s (s.callHome call m).tables ∧ (s.callHome call m).reply = none := by
  unfold Tables.callHome
  split
  · exact refresh_lists _
  · exact register_lists _ _

/-- A list that was sent is a list that may have been sent. -/
theorem served_sendList {list : Table Int Bytes} {names : List Bytes} {os' : Byte} {throws : Bool}
    {fuel : Nat} {h : Handled} (hset : SetUp list names)
    (hos : os = ch '1' ∨ os = ch '2') (hs : Served list (s.listOf os))
    (hsend : s.sendList os' throws fuel = some h) : Served list (h.tables.listOf os) := by
  -- a loop over this list ends with the key 0 in it
  have hjoin : ∀ j, joinList fuel (s.listOf os) = some j → Served list j.list := by
    intro j hj
    have hj' := joinList_served hset hs (Nat.le_refl _)
    rw [whileFuel_unique hj hj']
    exact Or.inr (rfl)
  unfold Tables.sendList at hsend
  split at hsend
  · rename_i hos'
    obtain ⟨j, hj, hj'⟩ := Option.map_eq_some_iff.mp hsend
    rw [← hj']
    rcases hos with rfl | rfl
    · exact hjoin j hj
    · exact hs
  · split at hsend
    · obtain ⟨j, hj, hj'⟩ := Option.map_eq_some_iff.mp hsend
      rw [← hj']
      rcases hos with rfl | rfl
      · exact hs
      · exact hjoin j hj
    · cases hsend
      exact hs

/-- Where the lists come from in an execution: they are untouched, or one of them was sent. -/
theorem handleFlag_lists {call : ListenCall} {flag os : Byte} {fuel : Nat} {h : Handled}
    (hrun : handleFlag call flag os m fuel s = some h) :
    SameLists s h.tables ∨ ∃ t h', SameLists s t ∧
      t.sendList os call.sendThrows fuel = some h' ∧ h.tables = h'.tables := by
  unfold handleFlag at hrun
  split at hrun
  · dsimp only at hrun
    split at hrun
    · obtain ⟨h', hsend, rfl⟩ := Option.map_eq_some_iff.mp hrun
      refine Or.inr ⟨_, h', (callHome_lists call).1, hsend, ?_⟩
      split <;> exact rfl
    · cases hrun
      exact Or.inl (callHome_lists call).1
  · cases hrun
    exact Or.inl .refl

theorem served_handleListen {list : Table Int Bytes} {names : List Bytes} {call : ListenCall}
    {fuel : Nat} {h : Handled} (hset : SetUp list names) (hos : os = ch '1' ∨ os = ch '2')
    (hs : Served list (s.listOf os)) (hrun : handleListen call fuel s = some h) :
    Served list (h.tables.listOf os) := by
  -- what the part after the first test makes of the lists
  have hflag : ∀ t flag os' m, SameLists s t → handleFlag call flag os' m fuel t = some h →
      Served list (h.tables.listOf os) := by
    intro t flag os' m hst hrun
    rw [← hst.listOf os] at hs
    rcases handleFlag_lists hrun with hsame | ⟨u, h', hsame, hsend, htables⟩
    · rw [hsame.listOf os]
      exact hs
    · rw [← hsame.listOf os] at hs
      rw [htables]
      exact served_sendList hset hos hs hsend
  unfold handleListen at hrun
  split at hrun
  · cases hrun
    exact hs
  · cases hrun
    exact hs
  · unfold handleMessage at hrun
    dsimp only at hrun
    split at hrun
    · cases hrun
      exact hs
    · split at hrun
      · split at hrun
        · exact hflag _ _ _ _ (refresh_lists _).1 hrun
        · cases hrun
          rw [(refresh_lists _).1.listOf os]
          exact hs
      · exact hflag _ _ _ _ .refl hrun

/-- Sending the list of an operating system. -/
theorem sendList_served {list : Table Int Bytes} {names : List Bytes} (hset : SetUp list names)
    (hos : os = ch '1' ∨ os = ch '2') (hs : Served list (s.listOf os)) (throws : Bool) {fuel : Nat}
    (hfuel : names.length + 1 ≤ fuel) :
    ∃ h, s.sendList os throws fuel = some h ∧ h.reply = some (listText names) := by
  have hjoin := joinList_served hset hs hfuel
  have hcstr : cstr (listText names) = listText names := by
    refine cstr_eq_self fun hzero => ?_
    obtain ⟨name, hname, hzero⟩ := List.mem_flatMap.mp hzero
    rcases List.mem_cons.mp hzero with hzero | hzero
    · exact absurd hzero (by decide)
    · exact (hset.plain name hname).2 hzero
  unfold Tables.sendList
  rcases hos with rfl | rfl
  · have hlist : s.listOf (ch '1') = s.windowsList := rfl
    rw [hlist] at hjoin
    rw [if_pos rfl, hjoin]
    exact ⟨_, rfl, congrArg some hcstr⟩
  · have hlist : s.listOf (ch '2') = s.linuxList := rfl
    rw [hlist] at hjoin
    rw [if_neg (by decide), if_pos rfl, hjoin]
    exact ⟨_, rfl, congrArg some hcstr⟩

/-- The answer to a call-home: it is the text of the names, or an exception has cut the execution
short before it was sent. -/
theorem handleFlag_reply {list : Table Int Bytes} {names : List Bytes} (hset : SetUp list names)
    (hos : os = ch '1' ∨ os = ch '2') (hs : Served list (s.listOf os)) (call : ListenCall)
    {fuel : Nat} (hfuel : names.length + 1 ≤ fuel) :
    ∃ h, handleFlag call (ch '1') os m fuel s = some h ∧
      (h.reply = some (listText names) ∨ h.reply = none ∧ h.completed = false) := by
  obtain ⟨hsame, hnone⟩ := callHome_lists (s := s) (m := m) call
  unfold handleFlag
  rw [if_pos rfl]
  dsimp only
  by_cases hhome : (s.callHome call m).completed = true
  · rw [if_pos hhome]
    rw [← hsame.listOf os] at hs
    obtain ⟨h, hsend, hreply⟩ := sendList_served hset hos hs call.sendThrows hfuel
    rw [hsend]
    refine ⟨_, rfl, Or.inl ?_⟩
    dsimp only
    split
    · exact hreply
    · exact hreply
  · rw [if_neg hhome]
    exact ⟨_, rfl, Or.inr ⟨hnone, by simpa using hhome⟩⟩

end

/-- The end of an exchange has nothing to do with the program lists. -/
theorem handleGather_lists {s t : Tables} {m : Bytes} {outcome : GatherOutcome} {fuel : Nat}
    (h : handleGather m outcome fuel s = some t) : SameLists s t := by
  unfold handleGather at h
  dsimp only at h
  split at h
  · cases h
    exact ⟨rfl, rfl⟩
  · split at h
    · cases h
    · cases outcome with
      | resolveThrows => cases h
      | timedOut => cases h; exact ⟨rfl, rfl⟩
      | connectionRefused => cases h; exact ⟨rfl, rfl⟩
      | hostUnreachable => cases h; exact ⟨rfl, rfl⟩
      | otherError => cases h; exact ⟨rfl, rfl⟩
      | response rBuffer env outside =>
          obtain ⟨p, -, rfl⟩ := Option.map_eq_some_iff.mp h
          unfold Tables.noteResponse
          split_ifs <;> exact ⟨rfl, rfl⟩

/-! ### An execution in which nothing throws -/

/-- Nothing that this execution of `handle_listen` calls throws. -/
structure ListenCall.Quiet (call : ListenCall) : Prop where
  endpoint : ∀ i, call.endpoint i = .returns
  db : call.db.throws = false
  send : call.sendThrows = false
  close : call.closeThrows = false

section
variable {s : Tables} {call : ListenCall} {m : Bytes} {h : Handled} {fuel : Nat}

theorem callHome_completed (hquiet : call.Quiet) : (s.callHome call m).completed = true := by
  unfold Tables.callHome
  split
  · rw [hquiet.endpoint 1]
    rfl
  · unfold Tables.register
    rw [hquiet.endpoint 0]
    show (!call.db.throws) = true
    rw [hquiet.db]
    rfl

theorem sendList_completed {os : Byte} (hsend : s.sendList os false fuel = some h) :
    h.completed = true := by
  unfold Tables.sendList at hsend
  split at hsend
  · obtain ⟨j, -, rfl⟩ := Option.map_eq_some_iff.mp hsend
    rfl
  · split at hsend
    · obtain ⟨j, -, rfl⟩ := Option.map_eq_some_iff.mp hsend
      rfl
    · cases hsend
      rfl

theorem handleFlag_completed {flag os : Byte} (hquiet : call.Quiet)
    (hrun : handleFlag call flag os m fuel s = some h) : h.completed = true := by
  unfold handleFlag at hrun
  rw [hquiet.send, hquiet.close] at hrun
  split at hrun
  · dsimp only at hrun
    rw [if_pos (callHome_completed hquiet)] at hrun
    obtain ⟨sent, hsend, rfl⟩ := Option.map_eq_some_iff.mp hrun
    have hsent := sendList_completed hsend
    rw [if_pos hsent]
    show (sent.completed && !false) = true
    rw [hsent]
    rfl
  · cases hrun
    rfl

/-- It runs to its end, if the name does not start behind the end of the message. -/
theorem handleListen_completed {data : Bytes} (hquiet : call.Quiet)
    (hread : call.read = .message data) (hlength : 2 ≤ (cstr data).length)
    (hrun : handleListen call fuel s = some h) : h.completed = true := by
  unfold handleListen handleMessage at hrun
  rw [hread] at hrun
  dsimp only at hrun
  rw [if_neg (Nat.not_lt.mpr hlength)] at hrun
  split at hrun
  · have hrefresh : (s.refresh ((cstr data).drop 2) call.sender (call.endpoint 0)).completed
        = true := by
      rw [hquiet.endpoint 0]
      rfl
    rw [if_pos hrefresh] at hrun
    exact handleFlag_completed hquiet hrun
  · exact handleFlag_completed hquiet hrun

/-- A call-home has a flag and an operating system in front of the name. -/
theorem two_le_length_cstr {data : Bytes} {os : Byte} (hos : os = ch '1' ∨ os = ch '2')
    (hflag : data.head? = some (ch '1')) (hsystem : data[1]? = some os) :
    2 ≤ (cstr data).length := by
  match data, hflag, hsystem with
  | flag :: system :: name, hflag, hsystem =>
      obtain rfl := Option.some.inj hflag
      obtain rfl := Option.some.inj hsystem
      have hplain : 0 ∉ [ch '1', system] := by
        rcases hos with rfl | rfl <;> decide
      have hcstr := cstr_append name hplain
      rw [List.cons_append, List.cons_append, List.nil_append] at hcstr
      rw [hcstr, List.length_append]
      exact Nat.le_add_right 2 _

end

/-! ### The history of the server -/

section
variable {windowsList linuxList list : Table Int Bytes} {names : List Bytes} {os : Byte}

/-- One execution. -/
theorem served_execute {s t : Tables} {e : Execution} (hset : SetUp list names)
    (hos : os = ch '1' ∨ os = ch '2') (hs : Served list (s.listOf os))
    (h : execute s e = some t) : Served list (t.listOf os) := by
  cases e with
  | listen call fuel =>
      obtain ⟨r, hr, rfl⟩ := Option.map_eq_some_iff.mp h
      exact served_handleListen hset hos hs hr
  | scan m =>
      simp only [execute] at h
      split at h
      · cases h
        exact hs
      · cases h
  | gather m outcome fuel =>
      simp only [execute] at h
      split at h
      · rw [(handleGather_lists h).listOf os]
        exact hs
      · cases h

/-- A call-home of an operating system whose list was set up ends, and what is sent is the text of
the names. An exception can cut the execution short before that. -/
theorem handleListen_answer {s : Tables} {call : ListenCall} {data : Bytes} {fuel : Nat}
    (hset : SetUp list names) (hos : os = ch '1' ∨ os = ch '2') (hs : Served list (s.listOf os))
    (hread : call.read = .message data) (hflag : data.head? = some (ch '1'))
    (hsystem : data[1]? = some os) (hfuel : names.length + 1 ≤ fuel) :
    ∃ r, handleListen call fuel s = some r ∧ (r.completed = true → r.reply.isSome) ∧
      ∀ text ∈ r.reply, text = listText names := by
  have hflag' : data.getD 0 0 = ch '1' := by
    rw [List.head?_eq_getElem?] at hflag
    rw [List.getD_eq_getElem?_getD, hflag, Option.getD_some]
  have hsystem' : data.getD 1 0 = os := by
    rw [List.getD_eq_getElem?_getD, hsystem, Option.getD_some]
  unfold handleListen handleMessage
  rw [hread]
  dsimp only
  rw [hflag', hsystem']
  -- an answer of `handleFlag` is what is asked for
  have hanswer : ∀ t, SameLists s t → ∃ r,
      handleFlag call (ch '1') os ((cstr data).drop 2) fuel t = some r ∧
        (r.completed = true → r.reply.isSome) ∧ ∀ text ∈ r.reply, text = listText names := by
    intro t hst
    have hs' := hs
    rw [← hst.listOf os] at hs'
    obtain ⟨r, hr, hreply | ⟨hnone, hc⟩⟩ := handleFlag_reply hset hos hs' call hfuel
    · refine ⟨r, hr, fun _ => Option.isSome_of_eq_some hreply, fun text htext => ?_⟩
      exact Option.some.inj (htext.symm.trans hreply)
    · refine ⟨r, hr, fun h1 => absurd h1 (by simp [hc]), fun text htext => ?_⟩
      rw [hnone] at htext
      cases htext
  split
  · exact ⟨_, rfl, fun hc => Bool.noConfusion hc, fun text htext => by cases htext⟩
  · split
    · split
      · exact hanswer _ (refresh_lists _).1
      · rename_i hc
        refine ⟨_, rfl, fun h1 => absurd h1 hc, fun text htext => ?_⟩
        rw [(refresh_lists _).2] at htext
        cases htext
    · exact hanswer s .refl

/-- What is sent to a client that calls home. -/
theorem handleListen_reply {s : Tables} {call : ListenCall} {data text : Bytes} {fuel : Nat}
    {r : Handled} (hset : SetUp list names) (hos : os = ch '1' ∨ os = ch '2')
    (hs : Served list (s.listOf os)) (hread : call.read = .message data)
    (hflag : data.head? = some (ch '1')) (hsystem : data[1]? = some os)
    (hfuel : names.length + 1 ≤ fuel) (h : handleListen call fuel s = some r)
    (htext : r.reply = some text) : text = listText names := by
  obtain ⟨r', hr', -, hnames⟩ := handleListen_answer hset hos hs hread hflag hsystem hfuel
  obtain rfl := Option.some.inj (hr'.symm.trans h)
  exact hnames text htext

/-- After any sequence of executions: a call-home of an operating system whose list was set up with
these names ends, and if a text is sent, then what the client makes of it are the names, in the
order of their positions. A text is sent where nothing throws. -/
theorem programList_positions (hos : os = ch '1' ∨ os = ch '2')
    (hset : SetUp ((Tables.empty windowsList linuxList).listOf os) names) {es : List Execution}
    {s : Tables} (h : run execute es (Tables.empty windowsList linuxList) = some s) :
    ∃ n, ∀ fuel ≥ n, ∀ (call : ListenCall) (data : Bytes), call.read = .message data →
      data.head? = some (ch '1') → data[1]? = some os →
      ∃ r, handleListen call fuel s = some r ∧ (call.Quiet → r.completed = true) ∧
        (r.completed = true → r.reply.isSome) ∧
        ∀ text ∈ r.reply, (receivedList text).map splitList = some names := by
  have hstep : ∀ s e t, Served ((Tables.empty windowsList linuxList).listOf os) (s.listOf os) →
      execute s e = some t →
      Served ((Tables.empty windowsList linuxList).listOf os) (t.listOf os) :=
    fun _ _ _ hs hstep => served_execute hset hos hs hstep
  have hs := run_invariant hstep (Or.inl rfl) h
  refine ⟨names.length + 1, fun fuel hfuel call data hread hflag hsystem => ?_⟩
  obtain ⟨r, hr, hanswered, htext⟩ := handleListen_answer hset hos hs hread hflag hsystem hfuel
  have hlength : 2 ≤ (cstr data).length := two_le_length_cstr hos hflag hsystem
  have hcompleted : call.Quiet → r.completed = true :=
    fun hquiet => handleListen_completed hquiet hread hlength hr
  refine ⟨r, hr, hcompleted, hanswered, fun text hreply => ?_⟩
  rw [htext text hreply]
  exact splitList_listText hset.nonempty fun name hname => (hset.plain name hname).1

end

/-- One program for Linux, and a position that is not in use. -/
def twoPositions : Table Int Bytes := (Table.set ∅ 1 [ch 'a']).set 2 []

theorem setUp_twoPositions : SetUp twoPositions [[ch 'a'], []] where
  nonempty := List.cons_ne_nil _ _
  plain := by decide
  lookup := by
    intro k
    show ((Table.set ∅ 1 [ch 'a']).set 2 []).lookup k = _
    rw [Table.lookup_set, Table.lookup_set]
    by_cases h2 : k = 2
    · rw [h2]
      rfl
    · by_cases h1 : k = 1
      · rw [h1]
        rfl
      · rw [if_neg h2, if_neg h1, AList.lookup_empty]
        split
        · exact (List.getElem?_eq_none (by simp; omega)).symm
        · rfl

/-- The second call-home of a Linux machine. -/
theorem programList_positions_again :
    ∃ s, run execute [.listen (callHomeOf [ch '7']) 3] (Tables.empty ∅ twoPositions) = some s ∧
      ∃ n, ∀ fuel ≥ n, ∃ r text, handleListen (callHomeOf [ch '8']) fuel s = some r ∧
        r.reply = some text ∧ (receivedList text).map splitList = some [[ch 'a'], []] := by
  refine ⟨_, rfl, ?_⟩
  obtain ⟨n, hn⟩ := @programList_positions ∅ twoPositions [[ch 'a'], []] (ch '2') (Or.inr rfl)
    setUp_twoPositions [.listen (callHomeOf [ch '7']) 3] _ rfl
  refine ⟨n, fun fuel hfuel => ?_⟩
  obtain ⟨r, hr, hcompleted, hanswered, htext⟩ := hn fuel hfuel (callHomeOf [ch '8'])
    [ch '1', ch '2', ch 'p', ch 'c'] rfl rfl rfl
  have hquiet : (callHomeOf [ch '8']).Quiet := ⟨fun _ => rfl, rfl, rfl, rfl⟩
  obtain ⟨text, hreply⟩ := Option.isSome_iff_exists.mp (hanswered (hcompleted hquiet))
  exact ⟨r, text, hr, hreply, htext text hreply⟩

end Monitoring.Server
