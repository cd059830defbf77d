import Monitoring.Lib.Run
import Monitoring.Server.Upload

/-!
# `Monitoring.Proofs.Upload`: what becomes of a queued EVENT

`upload_task` takes an EVENT off the queue and then begins to ask the database. Whatever goes wrong
from there on, the EVENT is gone: `uploadPass_keeps_iff` says for which answers nothing is lost.

And the row that it inserts may point anywhere. A query that ran is taken for one that found
something, and the ids have no initial value. `handed_points` says under which answers the ids are
those of the right rows, in every run: `names_of_pass` is the step, and rows stay where they are.
-/

set_option autoImplicit false

namespace Monitoring.Server

open Monitoring.Lib

/-! ### The statements of an iteration -/

section
variable {p : UploadPass} {e : EVENT}

/-- The answers that lead to the `SELECT` on `machine`, and the id that is in `user_id` then. -/
def UploadPass.FindsUser (p : UploadPass) (userId : Int) : Prop :=
  ∃ ids, p.replies.user = .rows ids ∧
    ((ids ≠ [] ∧ userId = ids.getLastD p.userId) ∨
      (ids = [] ∧ p.replies.userInsert ≠ .badQuery ∧
        ((∃ ids', p.replies.newUser = .rows ids' ∧ userId = ids'.getLastD p.userId) ∨
          (p.replies.newUser = .failed ∧ userId = p.userId))))

theorem insertEvent_mem_uploadMachine {userId timestamp machine user : Int} {data offset : Nat} :
    Statement.insertEvent timestamp machine user data offset ∈ uploadMachine p e userId ↔
      timestamp = e.timestamp ∧ data = e.data ∧ offset = e.blockOffset ∧ user = userId ∧
        ∃ ids, p.replies.machine = .rows ids ∧ machine = ids.getLastD p.machineId := by
  unfold uploadMachine
  cases p.replies.machine with
  | rows ids =>
      simp only [List.mem_cons, reduceCtorEq, false_or, Statement.insertEvent.injEq,
        StoreReply.rows.injEq, exists_eq_left', List.not_mem_nil, or_false]
      tauto
  | failed | badQuery => simp

/-- The `INSERT INTO event`, if there is one. -/
theorem insertEvent_mem_uploadEvent {timestamp machine user : Int} {data offset : Nat} :
    Statement.insertEvent timestamp machine user data offset ∈ uploadEvent p e ↔
      timestamp = e.timestamp ∧ data = e.data ∧ offset = e.blockOffset ∧ p.FindsUser user ∧
        ∃ ids, p.replies.machine = .rows ids ∧ machine = ids.getLastD p.machineId := by
  unfold uploadEvent UploadPass.FindsUser
  cases p.replies.user with
  | failed | badQuery => simp
  | rows ids =>
      cases ids with
      | cons id ids =>
          dsimp only
          rw [List.mem_cons, insertEvent_mem_uploadMachine]
          simp
      | nil =>
          dsimp only
          cases p.replies.userInsert with
          | badQuery => simp
          | done | failed =>
              dsimp only
              cases p.replies.newUser with
              | badQuery => simp
              | rows ids' | failed =>
                  dsimp only
                  rw [List.mem_cons, List.mem_cons, List.mem_cons, insertEvent_mem_uploadMachine]
                  simp

end

/-! ### Nothing is lost -/

/-- The `INSERT INTO event` was made for the EVENT that the iteration took, and it succeeded. -/
def Inserted (p : UploadPass) (eventsToUpload : List EVENT) (e : EVENT) : Prop :=
  eventsToUpload.getLast? = some e ∧ p.replies.event = .done ∧
    ∃ machineId userId, Statement.insertEvent e.timestamp machineId userId e.data e.blockOffset ∈
      (uploadPass p eventsToUpload).2

/-- The calls that are made run: the first `SELECT`, the insertion of the user and the second
`SELECT` raise nothing if they are needed, the third `SELECT`, and the insertion of the row. -/
structure UploadReplies.AllRun (r : UploadReplies) : Prop where
  user : ∃ ids, r.user = .rows ids ∧
    (ids = [] → r.userInsert ≠ .badQuery ∧ r.newUser ≠ .badQuery)
  machine : ∃ ids, r.machine = .rows ids
  event : r.event = .done

theorem exists_findsUser (p : UploadPass) :
    (∃ userId, p.FindsUser userId) ↔ ∃ ids, p.replies.user = .rows ids ∧
      (ids = [] → p.replies.userInsert ≠ .badQuery ∧ p.replies.newUser ≠ .badQuery) := by
  unfold UploadPass.FindsUser
  rw [exists_comm]
  refine exists_congr fun ids => ?_
  rw [exists_and_left]
  refine and_congr_right fun _ => ?_
  cases ids with
  | cons id ids => simp
  | nil =>
      cases p.replies.newUser with
      | rows ids' | failed | badQuery => simp

/-- The list without its last element lacks exactly that. -/
theorem count_dropLast_lt_iff {eventsToUpload : List EVENT} {e a : EVENT}
    (h : eventsToUpload.getLast? = some e) :
    eventsToUpload.dropLast.count a < eventsToUpload.count a ↔ a = e := by
  have hcount : eventsToUpload.count a = eventsToUpload.dropLast.count a + [e].count a := by
    rw [← List.count_append, List.dropLast_append_getLast? e h]
  rw [hcount, List.count_singleton]
  by_cases hae : a = e
  · simp [hae]
  · simp [hae, Ne.symm hae]

/-- An iteration inserts the EVENT that it takes exactly if all its calls run. -/
theorem inserted_iff {p : UploadPass} {eventsToUpload : List EVENT} {e : EVENT}
    (hlast : eventsToUpload.getLast? = some e) (hconnected : p.connected = true) :
    Inserted p eventsToUpload e ↔ p.replies.AllRun := by
  unfold Inserted uploadPass
  simp only [hlast, hconnected, if_true, true_and, insertEvent_mem_uploadEvent]
  constructor
  · rintro ⟨hevent, _, userId, hfinds, ids, hmachine, -⟩
    exact ⟨(exists_findsUser p).mp ⟨userId, hfinds⟩, ⟨ids, hmachine⟩, hevent⟩
  · rintro ⟨huser, ⟨ids, hmachine⟩, hevent⟩
    obtain ⟨userId, hfinds⟩ := (exists_findsUser p).mpr huser
    exact ⟨hevent, _, userId, hfinds, ids, hmachine, rfl⟩

/-- An EVENT is missing behind an iteration only if it was inserted, exactly if the iteration does
nothing, or all its calls run. -/
theorem uploadPass_keeps_iff (p : UploadPass) (eventsToUpload : List EVENT) :
    (∀ e, (uploadPass p eventsToUpload).1.count e < eventsToUpload.count e →
        Inserted p eventsToUpload e) ↔
      p.connected = false ∨ eventsToUpload = [] ∨ p.replies.AllRun := by
  cases hlast : eventsToUpload.getLast? with
  | none =>
      obtain rfl := List.getLast?_eq_none_iff.mp hlast
      exact iff_of_true (fun e h => absurd h (Nat.lt_irrefl _)) (Or.inr (Or.inl rfl))
  | some e =>
      have hne : eventsToUpload ≠ [] := by
        rintro rfl
        cases hlast
      by_cases hconnected : p.connected = true
      · -- `pop_back` has been executed
        have hqueue : (uploadPass p eventsToUpload).1 = eventsToUpload.dropLast := by
          simp [uploadPass, hlast, hconnected]
        rw [hqueue, ← inserted_iff hlast hconnected]
        simp only [count_dropLast_lt_iff hlast, forall_eq, hconnected, hne, false_or,
          Bool.true_eq_false]
      · have hqueue : (uploadPass p eventsToUpload).1 = eventsToUpload := by
          simp [uploadPass, hlast, hconnected]
        rw [hqueue]
        exact iff_of_true (fun a h => absurd h (Nat.lt_irrefl _))
          (Or.inl (Bool.eq_false_iff.mpr hconnected))

/-- An EVENT of `ann` at `pc`. -/
def annEvent : EVENT := ⟨[ch 'p', ch 'c'], 1000000020, [ch 'a', ch 'n', ch 'n'], 1, 1, 0⟩

/-- The machine is looked up in vain: the EVENT is gone. -/
theorem uploadPass_keeps_fails :
    let p : UploadPass := ⟨true, ⟨.rows [7], .done, .rows [], .failed, .done⟩, 0, 0⟩
    (uploadPass p [annEvent]).1 = [] ∧ ¬ Inserted p [annEvent] annEvent := by
  refine ⟨by decide, ?_⟩
  rintro ⟨-, -, _, _, hmem⟩
  have hstatements : (uploadPass ⟨true, ⟨.rows [7], .done, .rows [], .failed, .done⟩, 0, 0⟩
      [annEvent]).2 = [.selectUser annEvent.user, .selectMachine annEvent.machine] := by decide
  rw [hstatements] at hmem
  simp at hmem

/-! ### Where the row points -/

/-- Every row that was handed to the database points to a user and a machine of the right name. -/
def PointsRight (same : Bytes → Bytes → Bool) (s : UploadState) : Prop :=
  ∀ e timestamp machineId userId data blockOffset,
    (e, Statement.insertEvent timestamp machineId userId data blockOffset) ∈ s.handed →
      Names same s.db.user userId e.user ∧ Names same s.db.machine machineId e.machine

/-- The answers lead to the insertion of the row. -/
def UploadPass.Inserts (p : UploadPass) : Prop :=
  (∃ userId, p.FindsUser userId) ∧ ∃ ids, p.replies.machine = .rows ids

/-- The machine was found, and the user was found by the first query or by the second. -/
def UploadPass.FindsBoth (p : UploadPass) : Prop :=
  p.replies.machine ≠ .rows [] ∧
    (p.replies.user = .rows [] → ∃ id ids, p.replies.newUser = .rows (id :: ids))

/-- If an iteration comes to the insertion of the row, then both names are plain, and both were
found. -/
def InsertsFound (s : UploadState) : UploadAction → Prop
  | .pass p _ =>
      p.connected = true → ∀ e, s.eventsToUpload.getLast? = some e → p.Inserts →
        Plain e.user ∧ Plain e.machine ∧ p.FindsBoth
  | _ => True

section
variable {same : Bytes → Bytes → Bool} {s t : UploadState}

/-- The ids of an iteration that finds both. -/
theorem names_of_pass {db : Database} {e : EVENT} {p : UploadPass} {tables : PassTables}
    {userId : Int} {ids : List Int} (hpossible : PossiblePass same db e p tables)
    (huser : p.FindsUser userId) (hmachine : p.replies.machine = .rows ids)
    (hplain : Plain e.user ∧ Plain e.machine) (hboth : p.FindsBoth) :
    Names same tables.after.user userId e.user ∧
      Names same tables.after.machine (ids.getLastD p.machineId) e.machine := by
  obtain ⟨-, hadded, hafter, -, hmachines, hanswer, hanswer', hanswerMachine⟩ := hpossible
  constructor
  · obtain ⟨ids', hids', ⟨hne, rfl⟩ | ⟨rfl, -, hnew⟩⟩ := huser
    · rw [hids'] at hanswer
      exact (hanswer.names_last hplain.1 hne _).mono (List.Subset.trans hadded hafter)
    · -- the user was inserted, and the second query has a row
      obtain ⟨id, found, hfound⟩ := hboth.2 hids'
      rw [hfound] at hanswer' hnew
      obtain ⟨_, heq, rfl⟩ | ⟨heq, -⟩ := hnew
      · cases heq
        exact (hanswer'.names_last hplain.1 (List.cons_ne_nil _ _) _).mono hafter
      · cases heq
  · rw [hmachine] at hanswerMachine
    have hne : ids ≠ [] := by
      rintro rfl
      exact hboth.1 hmachine
    exact (hanswerMachine.names_last hplain.2 hne _).mono hmachines

/-- Rows that were right stay right. -/
theorem PointsRight.mono (hs : PointsRight same s) (huser : s.db.user ⊆ t.db.user)
    (hmachine : s.db.machine ⊆ t.db.machine) {e : EVENT} {timestamp machineId userId : Int}
    {data blockOffset : Nat}
    (hmem : (e, Statement.insertEvent timestamp machineId userId data blockOffset) ∈ s.handed) :
    Names same t.db.user userId e.user ∧ Names same t.db.machine machineId e.machine := by
  obtain ⟨hu, hm⟩ := hs e timestamp machineId userId data blockOffset hmem
  exact ⟨hu.mono huser, hm.mono hmachine⟩

/-- The step lemma. -/
theorem pointsRight_step {a : UploadAction} (hs : PointsRight same s) (hok : InsertsFound s a)
    (h : uploadStep same s a = some t) : PointsRight same t := by
  intro e timestamp machineId userId data blockOffset hmem
  unfold uploadStep at h
  cases a with
  | push e' =>
      cases h
      exact hs.mono (List.Subset.refl _) (List.Subset.refl _) hmem
  | addRows user machine =>
      cases h
      exact hs.mono (List.subset_append_left _ _) (List.subset_append_left _ _) hmem
  | pass p tables =>
      dsimp only at h
      cases hlast : s.eventsToUpload.getLast? with
      | none =>
          rw [hlast] at h
          cases h
          exact hs.mono (List.Subset.refl _) (List.Subset.refl _) hmem
      | some taken =>
          rw [hlast] at h
          dsimp only at h
          split at h
          · case isTrue hconnected =>
            split at h
            · case isTrue hpossible =>
              cases h
              have hstatements : (uploadPass p s.eventsToUpload).2 = uploadEvent p taken := by
                simp [uploadPass, hlast, hconnected]
              rcases List.mem_append.mp hmem with hold | hnew
              · obtain ⟨hu, hu', hu'', hm, hm', -⟩ := hpossible
                exact hs.mono (List.Subset.trans hu (List.Subset.trans hu' hu''))
                  (List.Subset.trans hm hm') hold
              · -- a statement of this iteration
                obtain ⟨q, hq, heq⟩ := List.mem_map.mp hnew
                cases heq
                rw [hstatements, insertEvent_mem_uploadEvent] at hq
                obtain ⟨-, -, -, huser, ids, hmachine, rfl⟩ := hq
                obtain ⟨hplain, hplain', hboth⟩ :=
                  hok hconnected _ hlast ⟨⟨_, huser⟩, ids, hmachine⟩
                exact names_of_pass hpossible huser hmachine ⟨hplain, hplain'⟩ hboth
            · cases h
          · cases h
            exact hs.mono (List.Subset.refl _) (List.Subset.refl _) hmem

end

/-- In every run whose iterations insert only what they have found, every row points to its user and
its machine. -/
theorem handed_points (same : Bytes → Bytes → Bool) {eventsToUpload : List EVENT} {db : Database}
    {actions : List UploadAction} {s : UploadState}
    (hok : AllSteps (uploadStep same) InsertsFound actions (.start eventsToUpload db))
    (h : run (uploadStep same) actions (.start eventsToUpload db) = some s) :
    PointsRight same s :=
  run_invariant_of_allSteps (fun _ _ _ hs hok hstep => pointsRight_step hs hok hstep)
    (fun _ _ _ _ _ _ hmem => absurd hmem List.not_mem_nil) hok h

/-- The database compares names byte by byte. -/
def sameBytes (a b : Bytes) : Bool := a = b

/-- `ann` and `pc` have a row each. -/
def annDatabase : Database := ⟨[⟨7, [ch 'a', ch 'n', ch 'n']⟩], [⟨3, [ch 'p', ch 'c']⟩]⟩

/-- An iteration that finds these users and machines, and inserts the row. -/
def passFinding (user machine : List Int) (userId machineId : Int) : UploadAction :=
  .pass ⟨true, ⟨.rows user, .done, .rows user, .rows machine, .done⟩, userId, machineId⟩
    ⟨annDatabase.user, annDatabase.user, annDatabase.machine, annDatabase⟩

theorem handed_points_found :
    ∃ s, run (uploadStep sameBytes) [passFinding [7] [3] 0 0] (.start [annEvent] annDatabase) =
        some s ∧ s.handed.length = 3 ∧ PointsRight sameBytes s := by
  have hok : AllSteps (uploadStep sameBytes) InsertsFound [passFinding [7] [3] 0 0]
      (.start [annEvent] annDatabase) := by
    refine ⟨fun _ e he _ => ?_, fun _ _ => trivial⟩
    obtain rfl : annEvent = e := Option.some.inj he
    exact ⟨by decide, by decide, by decide, fun h => by cases h⟩
  exact ⟨_, rfl, by decide, handed_points sameBytes hok rfl⟩

/-- All calls run, and the second EVENT comes from a machine without a row. The local still holds
the id of `pc`, and the row is inserted for `pc`. -/
theorem handed_points_fails :
    ∃ s, run (uploadStep sameBytes) [passFinding [7] [3] 0 0, passFinding [7] [] 7 3]
        (.start [{ annEvent with machine := [ch 'l', ch 'a', ch 'b'] }, annEvent] annDatabase) =
        some s ∧ ¬ PointsRight sameBytes s := by
  refine ⟨_, rfl, fun h => ?_⟩
  obtain ⟨-, row, hrow, -, hname⟩ :=
    h { annEvent with machine := [ch 'l', ch 'a', ch 'b'] } 1000000020 3 7 1 1 (by decide)
  obtain rfl := List.mem_singleton.mp hrow
  exact absurd hname (by decide)

end Monitoring.Server
