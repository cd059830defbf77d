import Monitoring.Lib.SqlLexer
import Monitoring.Server.MachineStatus
import Monitoring.Server.Upload

/-!
# `Monitoring.Proofs.SqlText`: names inside of SQL texts

The server puts a name between two double quotes and does not escape it. `keepsName_iff` says for
which names the database reads a statement as it is meant, and `namesStayData_iff` says it for all
statements of a call of `db_machine_insert` and of an iteration of `upload_task`.
-/

set_option autoImplicit false

namespace Monitoring.Server

open Monitoring.Lib

/-- The name a statement is about. -/
def Statement.name : Statement → Option Bytes
  | .selectUser name => some name
  | .insertUser name _ => some name
  | .selectMachine name => some name
  | .insertMachine name _ => some name
  | .insertEvent _ _ _ _ _ => none
  | .updateMachine _ _ _ => none

/-- The same statement about another name. -/
def Statement.withName (other : Bytes) : Statement → Statement
  | .selectUser _ => .selectUser other
  | .insertUser _ guestType => .insertUser other guestType
  | .selectMachine _ => .selectMachine other
  | .insertMachine _ status => .insertMachine other status
  | .insertEvent timestamp machineId userId data blockOffset =>
      .insertEvent timestamp machineId userId data blockOffset
  | .updateMachine status stamped machineId => .updateMachine status stamped machineId

/-- The text is read as one string whose value is the name, between two texts without quotes that
are the same for every other name. -/
def Statement.KeepsName (q : Statement) (name : Bytes) : Prop :=
  ∃ before after : Bytes,
    (∀ other, (q.withName other).text = before ++ quoted other ++ after) ∧
      (∀ c ∈ before ++ after, isQuote c = false) ∧
      lexSql q.text = before.map .byte ++ .literal name :: after.map .byte

/-- The bytes in front of the name, and behind it. -/
def Statement.frame : Statement → Bytes × Bytes
  | .selectUser _ => (str "SELECT user_id FROM user WHERE user_name=", [])
  | .insertUser _ guestType =>
      (str "INSERT INTO user(user_is_guest,user_name,guest_type) VALUES(1,",
        str "," ++ printDec guestType ++ str ")")
  | .selectMachine _ => (str "SELECT machine_id FROM machine WHERE machine_name=", [])
  | .insertMachine _ status =>
      (str "INSERT INTO machine(machine_name,machine_a_id,machine_status,last_communication) " ++
        str "VALUES(", str ",1," ++ printDec status ++ str ",unix_timestamp())")
  | .insertEvent _ _ _ _ _ => ([], [])
  | .updateMachine _ _ _ => ([], [])

section
variable {q : Statement} {name : Bytes}

theorem text_withName (h : q.name = some name) (other : Bytes) :
    (q.withName other).text = q.frame.1 ++ quoted other ++ q.frame.2 := by
  cases q with
  | selectUser | selectMachine => exact (List.append_nil _).symm
  | insertUser | insertMachine => simp [Statement.withName, Statement.text, Statement.frame]
  | insertEvent | updateMachine => cases h

theorem withName_self (h : q.name = some name) : q.withName name = q := by
  cases q with
  | selectUser | selectMachine | insertUser | insertMachine =>
      obtain rfl := Option.some.inj h
      rfl
  | insertEvent | updateMachine => cases h

/-- A printed number has no quotes. -/
theorem isQuote_printDec {i : Int} {c : Byte} (h : c ∈ printDec i) : isQuote c = false := by
  have hdigit : ∀ c ∈ printBase 10 i.natAbs, isQuote c = false := by
    intro c hc
    have hlt := isDigit_of_mem_printBase (by decide) (by decide) hc
    rw [Bool.eq_false_iff]
    intro hquote
    simp only [isQuote, Bool.or_eq_true, beq_iff_eq] at hquote
    rcases hquote with rfl | rfl <;> exact absurd hlt (by decide)
  unfold printDec at h
  split at h
  · rcases List.mem_cons.mp h with rfl | h
    · decide
    · exact hdigit c h
  · exact hdigit c h

/-- There are no quotes in front of the name but the one. -/
theorem isQuote_before (q : Statement) : ∀ c ∈ q.frame.1, isQuote c = false := by
  cases q with
  | selectUser name =>
      exact (by decide +kernel : ∀ c ∈ (Statement.selectUser []).frame.1, isQuote c = false)
  | insertUser name guestType =>
      exact (by decide +kernel : ∀ c ∈ (Statement.insertUser [] 0).frame.1, isQuote c = false)
  | selectMachine name =>
      exact (by decide +kernel : ∀ c ∈ (Statement.selectMachine []).frame.1, isQuote c = false)
  | insertMachine name status =>
      exact (by decide +kernel : ∀ c ∈ (Statement.insertMachine [] 0).frame.1, isQuote c = false)
  | insertEvent | updateMachine => exact fun c hc => absurd hc List.not_mem_nil

/-- Nor behind it. -/
theorem isQuote_after (q : Statement) : ∀ c ∈ q.frame.2, isQuote c = false := by
  -- a number between two texts
  have hnumber : ∀ {a b : Bytes} (i : Int), (∀ c ∈ a, isQuote c = false) →
      (∀ c ∈ b, isQuote c = false) → ∀ c ∈ a ++ printDec i ++ b, isQuote c = false := by
    intro a b i ha hb c hc
    rcases List.mem_append.mp hc with hc | hc
    · exact (List.mem_append.mp hc).elim (ha c) isQuote_printDec
    · exact hb c hc
  cases q with
  | insertUser name guestType => exact hnumber guestType (by decide +kernel) (by decide +kernel)
  | insertMachine name status => exact hnumber status (by decide +kernel) (by decide +kernel)
  | selectUser | selectMachine | insertEvent | updateMachine =>
      exact fun c hc => absurd hc List.not_mem_nil

/-- Which names a statement keeps. -/
theorem keepsName_iff (h : q.name = some name) : q.KeepsName name ↔ Verbatim 34 name := by
  have hquoted : ∀ before after, (q.withName name).text = before ++ quoted name ++ after →
      (∀ c ∈ before ++ after, isQuote c = false) →
      (lexSql q.text = before.map .byte ++ .literal name :: after.map .byte ↔
        Verbatim 34 name) := by
    intro before after htext hplain
    rw [withName_self h] at htext
    rw [htext]
    have happend : before ++ quoted name ++ after = before ++ 34 :: name ++ 34 :: after := by
      simp [quoted]
    rw [happend]
    exact lexSql_quoted_iff (by decide) (fun c hc => hplain c (List.mem_append_left _ hc))
      fun c hc => hplain c (List.mem_append_right _ hc)
  constructor
  · rintro ⟨before, after, htext, hplain, hlex⟩
    exact (hquoted before after (htext name) hplain).mp hlex
  · intro hverbatim
    have hplain : ∀ c ∈ q.frame.1 ++ q.frame.2, isQuote c = false := fun c hc =>
      (List.mem_append.mp hc).elim (isQuote_before q c) (isQuote_after q c)
    exact ⟨q.frame.1, q.frame.2, text_withName h, hplain,
      (hquoted _ _ (text_withName h name) hplain).mpr hverbatim⟩

/-! ### The statements of the two functions -/

/-- What a call of `db_machine_insert` hands to the database. -/
theorem dbMachineInsert_statements (s : StatusState) (machine : Bytes) (r : RegisterReplies) :
    ∃ status, ((s.dbMachineInsert machine r).handed.drop s.handed.length).map Handed.statement
      = if r.connected then
          .selectMachine machine :: if r.Inserts then [.insertMachine machine status] else []
        else [] := by
  unfold StatusState.dbMachineInsert StatusState.hand
  cases r.connected with
  | false => exact ⟨0, by simp⟩
  | true =>
      by_cases hinserts : r.Inserts
      · exact ⟨_, by simp [hinserts]; rfl⟩
      · exact ⟨0, by simp [hinserts]⟩

theorem uploadMachine_names {p : UploadPass} {e : EVENT} {userId : Int}
    (hq : q ∈ uploadMachine p e userId) (h : q.name = some name) :
    q = .selectMachine e.machine := by
  unfold uploadMachine at hq
  rcases List.mem_cons.mp hq with hq | hq
  · exact hq
  · split at hq
    · rw [List.mem_singleton.mp hq] at h
      cases h
    · exact absurd hq List.not_mem_nil
    · exact absurd hq List.not_mem_nil

/-- The names in the statements of an iteration of `upload_task`. -/
theorem uploadEvent_names {p : UploadPass} {e : EVENT} (hq : q ∈ uploadEvent p e)
    (h : q.name = some name) : name = e.user ∨ q = .selectMachine e.machine := by
  have hselect : q = .selectUser e.user → name = e.user := by
    rintro rfl
    exact (Option.some.inj h).symm
  have hinsert : q = .insertUser e.user e.guestType → name = e.user := by
    rintro rfl
    exact (Option.some.inj h).symm
  unfold uploadEvent at hq
  rcases List.mem_cons.mp hq with hq | hq
  · exact Or.inl (hselect hq)
  · split at hq
    · rcases List.mem_cons.mp hq with hq | hq
      · exact Or.inl (hinsert hq)
      · split at hq
        · exact absurd hq List.not_mem_nil
        all_goals
          rcases List.mem_cons.mp hq with hq | hq
          · exact Or.inl (hselect hq)
          · split at hq
            · exact Or.inr (uploadMachine_names hq h)
            · exact Or.inr (uploadMachine_names hq h)
            · exact absurd hq List.not_mem_nil
    · exact Or.inr (uploadMachine_names hq h)
    · exact absurd hq List.not_mem_nil
    · exact absurd hq List.not_mem_nil

/-- The answers lead an iteration to the `SELECT` on `machine`: the user is known, or was inserted
without an exception and could be selected. -/
def UploadReplies.ReachMachine (r : UploadReplies) : Prop :=
  match r.user with
  | .rows [] => r.userInsert ≠ .badQuery ∧ r.newUser ≠ .badQuery
  | .rows (_ :: _) => True
  | .failed => False
  | .badQuery => False

theorem selectMachine_mem_iff {p : UploadPass} {e : EVENT} :
    .selectMachine e.machine ∈ uploadEvent p e ↔ p.replies.ReachMachine := by
  have hmachine : ∀ userId, .selectMachine e.machine ∈ uploadMachine p e userId :=
    fun _ => List.mem_cons_self
  unfold uploadEvent UploadReplies.ReachMachine
  rw [List.mem_cons, or_iff_right (by simp)]
  cases p.replies.user with
  | failed => exact iff_of_false List.not_mem_nil not_false
  | badQuery => exact iff_of_false List.not_mem_nil not_false
  | rows ids =>
      cases ids with
      | cons id ids => exact iff_of_true (hmachine _) trivial
      | nil =>
          dsimp only
          rw [List.mem_cons, or_iff_right (by simp)]
          cases p.replies.userInsert with
          | badQuery => simp
          | done | failed =>
              dsimp only
              rw [List.mem_cons, or_iff_right (by simp)]
              cases p.replies.newUser with
              | badQuery => simp
              | rows ids => exact iff_of_true (hmachine _) (by simp)
              | failed => exact iff_of_true (hmachine _) (by simp)

/-- The statements of a call of `db_machine_insert`. -/
theorem dbMachineInsert_keepsName_iff (s : StatusState) (machine : Bytes) (r : RegisterReplies) :
    (∀ handed ∈ (s.dbMachineInsert machine r).handed.drop s.handed.length,
        handed.statement.KeepsName machine) ↔
      (r.connected = true → Verbatim 34 machine) := by
  obtain ⟨status, hstatements⟩ := dbMachineInsert_statements s machine r
  have hmap : (∀ handed ∈ (s.dbMachineInsert machine r).handed.drop s.handed.length,
      handed.statement.KeepsName machine) ↔
      ∀ q ∈ ((s.dbMachineInsert machine r).handed.drop s.handed.length).map Handed.statement,
        q.KeepsName machine := by
    rw [List.forall_mem_map]
  rw [hmap, hstatements]
  cases r.connected with
  | false => exact iff_of_true (fun _ hq => absurd hq List.not_mem_nil) fun h => by cases h
  | true =>
      rw [if_pos rfl, List.forall_mem_cons, keepsName_iff rfl]
      constructor
      · exact fun h _ => h.1
      · intro h
        refine ⟨h rfl, fun q hq => ?_⟩
        split at hq
        · rw [List.mem_singleton.mp hq]
          exact (keepsName_iff rfl).mpr (h rfl)
        · exact absurd hq List.not_mem_nil

/-- The statements of an iteration of `upload_task`. -/
theorem uploadEvent_keepsName_iff (p : UploadPass) (e : EVENT) :
    (∀ q ∈ uploadEvent p e, ∀ name ∈ q.name, q.KeepsName name) ↔
      Verbatim 34 e.user ∧ (p.replies.ReachMachine → Verbatim 34 e.machine) := by
  rw [← selectMachine_mem_iff (e := e)]
  constructor
  · intro h
    have huser : Statement.selectUser e.user ∈ uploadEvent p e := List.mem_cons_self
    refine ⟨(keepsName_iff rfl).mp (h _ huser e.user rfl), fun hmachine => ?_⟩
    exact (keepsName_iff rfl).mp (h _ hmachine e.machine rfl)
  · rintro ⟨huser, hmachine⟩ q hq name hname
    rw [keepsName_iff hname]
    rcases uploadEvent_names hq hname with rfl | rfl
    · exact huser
    · obtain rfl := Option.some.inj hname
      exact hmachine hq

/-- For every call of `db_machine_insert` and every iteration of `upload_task`: each statement keeps
the name in it, exactly if the database reads the name as it is. -/
theorem namesStayData_iff (s : StatusState) (machine : Bytes) (r : RegisterReplies) (p : UploadPass)
    (e : EVENT) :
    ((∀ handed ∈ (s.dbMachineInsert machine r).handed.drop s.handed.length,
        handed.statement.KeepsName machine) ↔
      (r.connected = true → Verbatim 34 machine)) ∧
    ((∀ q ∈ uploadEvent p e, ∀ name ∈ q.name, q.KeepsName name) ↔
      Verbatim 34 e.user ∧ (p.replies.ReachMachine → Verbatim 34 e.machine)) :=
  ⟨dbMachineInsert_keepsName_iff s machine r, uploadEvent_keepsName_iff p e⟩

end

/-- A machine calls home with quotes in its name: the `SELECT` of `db_machine_insert` has two
strings, with a condition between them. -/
theorem namesStayData_fails :
    let machine := str "a" ++ [34] ++ str " OR " ++ [34] ++ str "b"
    let s : StatusState := ⟨∅, [], none, []⟩
    0 ∉ machine ∧ lexSql (Statement.selectMachine machine).text
        = (str "SELECT machine_id FROM machine WHERE machine_name=").map .byte ++
          [.literal (str "a")] ++ (str " OR ").map .byte ++ [.literal (str "b")] ∧
      ¬ ∀ handed ∈ (s.dbMachineInsert machine ⟨true, .rows [1]⟩).handed.drop s.handed.length,
          handed.statement.KeepsName machine := by
  refine ⟨by decide, by decide +kernel, fun h => ?_⟩
  exact absurd ((dbMachineInsert_keepsName_iff _ _ _).mp h rfl) (by decide)

end Monitoring.Server
