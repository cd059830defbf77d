import Monitoring.Proofs.EventStore
import Monitoring.Proofs.MachineStatus
import Monitoring.Server.StatusStore

/-!
# `Monitoring.Proofs.StatusStore`: what `machine_status` shows after a pass

`StatusStoreInv` is kept by every step, whatever fails: a status that has come into a text stands in
the table once the text has been executed. The reason is that the names in the map have rows of
their own, so no statement writes to the row of another machine. `covers_step` says that without a
failure the iterator passes over no entry whose status has not come into a text. So the table shows
the map after a pass (`pass_shows`). `passStatements_eq_visitEntry` says that a visit is that of
`Monitoring.Server.MachineStatus`.
-/

set_option autoImplicit false

namespace Monitoring.Server

open Monitoring.Lib

/-! ### The order of the map -/

theorem firstName_eq_none {names : List Bytes} : firstName names = none ↔ names = [] := by
  cases names with
  | nil => exact ⟨fun _ => rfl, fun _ => rfl⟩
  | cons name names => exact ⟨nofun, nofun⟩

theorem firstName_spec {names : List Bytes} {first : Bytes} (h : firstName names = some first) :
    first ∈ names ∧ ∀ name ∈ names, first ≤ name := by
  induction names generalizing first with
  | nil => cases h
  | cons name names ih =>
      unfold firstName at h
      obtain rfl := Option.some.inj h
      cases hrest : firstName names with
      | none =>
          obtain rfl := firstName_eq_none.mp hrest
          refine ⟨List.mem_cons_self, fun other hother => ?_⟩
          obtain rfl := List.mem_singleton.mp hother
          exact List.le_refl _
      | some rest =>
          obtain ⟨hmem, hle⟩ := ih hrest
          dsimp only
          split
          · rename_i hlt
            refine ⟨List.mem_cons_of_mem _ hmem, List.forall_mem_cons.mpr ⟨?_, hle⟩⟩
            exact List.le_of_lt hlt
          · rename_i hlt
            have hname : name ≤ rest := List.not_lt.mp hlt
            refine ⟨List.mem_cons_self, List.forall_mem_cons.mpr ⟨List.le_refl _, ?_⟩⟩
            exact fun other hother => List.le_trans hname (hle other hother)

theorem mem_of_nextEntry {m : Table Bytes Int} {it : Option Bytes} {name : Bytes}
    (h : nextEntry m it = some name) : name ∈ m :=
  AList.mem_keys.mpr (List.mem_filter.mp (firstName_spec h).1).1

/-- The iterator passes over no entry. -/
theorem nextEntry_le {m : Table Bytes Int} {it : Option Bytes} {name : Bytes} (hmem : name ∈ m)
    (hit : ∀ last, it = some last → last < name) : ∃ x, nextEntry m it = some x ∧ x ≤ name := by
  have hkept : name ∈ m.keys.filter fun name => it.all fun last => decide (last < name) := by
    refine List.mem_filter.mpr ⟨AList.mem_keys.mp hmem, ?_⟩
    cases it with
    | none => rfl
    | some last => exact decide_eq_true (hit last rfl)
  cases hnext : nextEntry m it with
  | none => 
      rw [firstName_eq_none.mp hnext] at hkept
      exact absurd hkept List.not_mem_nil
  | some x => exact ⟨x, rfl, (firstName_spec hnext).2 name hkept⟩

/-! ### What the table shows -/

/-- The name stands for itself in a statement, the column keeps it, and it is no expression. -/
structure Fits (sql : MachineSql) (name : Bytes) : Prop where
  plain : Plain name
  kept : sql.weight (sql.machineName name) = sql.weight name
  expression : ∀ row, sql.expression name row = none

/-- The entry of the iterator. -/
def VisitPc.entry : VisitPc → Option Bytes
  | .idle => none
  | .enter name | .select name | .insert name _ | .selectNew name | .updateNew name _
  | .update name _ _ => some name

/-- The text of this entry is not written yet. -/
def VisitPc.Before : VisitPc → Prop
  | .enter _ | .select _ => True
  | _ => False

/-- The name and the status in the text that is about to be executed. -/
def VisitPc.text : VisitPc → Option (Bytes × Int)
  | .insert name status | .update name status _ => some (name, status)
  | _ => none

/-- The table has a row of the machine with the status that the map holds. -/
def StatusStore.Shows (sql : MachineSql) (s : StatusStore) (name : Bytes) : Prop :=
  ∃ row ∈ s.machine, sql.weight row.name = sql.weight name ∧
    row.status = s.mapMnameStatus.read name 0

/-- The table shows a machine whose status has come into a text, as soon as the text is executed. -/
structure StatusStore.Current (sql : MachineSql) (s : StatusStore) (name : Bytes) : Prop where
  mem : name ∈ s.mapMnameStatus
  set : s.mapMnameStatus.read name 0 ≠ 0
  text : ∀ status, s.pc.text = some (name, status) → status = s.mapMnameStatus.read name 0
  shown : (∀ status, s.pc.text ≠ some (name, status)) → s.Shows sql name

/-- The invariant. -/
structure StatusStoreInv (sql : MachineSql) (s : StatusStore) : Prop where
  table : NameTable sql.toCharset s.rows
  range : StatusRange s.mapMnameStatus
  fits : ∀ name ∈ s.mapMnameStatus, Fits sql name
  apart : ∀ name ∈ s.mapMnameStatus, ∀ other ∈ s.mapMnameStatus,
    sql.weight name = sql.weight other → name = other
  entry : ∀ name, s.pc.entry = some name → name ∈ s.mapMnameStatus
  entered : ∀ name, s.pc = .select name → s.mapMnameStatus.read name 0 ≠ 0
  id : ∀ name status id, s.pc = .update name status id → Names sql.same s.rows id name
  current : ∀ name ∈ s.current, s.Current sql name

/-- A name that comes to the map is one that the table can hold, besides the others. -/
def Admissible (sql : MachineSql) (s : StatusStore) (name : Bytes) : Prop :=
  Fits sql name ∧ ∀ other ∈ s.mapMnameStatus, sql.weight name = sql.weight other → name = other

/-- What is asked of an action. -/
def StatusStoreAction.Proper (sql : MachineSql) (s : StatusStore) : StatusStoreAction → Prop
  | .setStatus name _ | .touch name => Admissible sql s name
  | _ => True

section
variable {sql : MachineSql} {s t : StatusStore} {name : Bytes}

theorem unsignedColumn_of_range {status : Int} (h : 0 ≤ status ∧ status ≤ 3) :
    unsignedColumn 8 status = status := by
  unfold unsignedColumn
  omega

theorem rows_setStatuses {machine : List MachineRow} {id : Int} {value : MachineRow → Int} :
    (setStatuses machine id value).map MachineRow.toRow = machine.map MachineRow.toRow := by
  unfold setStatuses
  rw [List.map_map]
  refine List.map_congr_left fun row _ => ?_
  dsimp only [Function.comp]
  split <;> rfl

/-- A row with the same id as the row of a name is the row of this name. -/
theorem weight_of_id {table : List Row} {row : Row} {id : Int}
    (h : NameTable sql.toCharset table) (hnames : Names sql.same table id name)
    (hrow : row ∈ table) (hid : row.id = id) : sql.weight row.name = sql.weight name := by
  obtain ⟨hweight, -⟩ := nameById_of_names h hnames
  have hfound : nameById sql.toCharset table row.id = some (sql.weight row.name) :=
    keyById_of_mem h.ids hrow
  rw [hid] at hfound
  exact Option.some.inj (hfound.symm.trans hweight)

/-- Statuses and entries that come to the map. Those that change are of machines that are not
`Current`. -/
theorem StatusStoreInv.setMap (name : Bytes) {m : Table Bytes Int} {current : List Bytes}
    {pc : VisitPc} {machineId : Int} (h : StatusStoreInv sql s) (hrange : StatusRange m)
    (hmem : ∀ other, other ∈ m ↔ other = name ∨ other ∈ s.mapMnameStatus)
    (hname : Admissible sql s name)
    (hcurrent : ∀ other ∈ current, other ∈ s.current ∧
      m.read other 0 = s.mapMnameStatus.read other 0)
    (htext : pc.text = s.pc.text) (hentry : pc.entry = s.pc.entry)
    (hentered : ∀ other, pc = .select other → m.read other 0 ≠ 0)
    (hid : ∀ other status id, pc = .update other status id → s.pc = .update other status id) :
    StatusStoreInv sql ⟨m, s.machine, pc, machineId, current⟩ where
  table := h.table
  range := hrange
  fits other hother := by
    rcases (hmem other).mp hother with rfl | hother
    · exact hname.1
    · exact h.fits other hother
  apart a ha b hb hweight := by
    rcases (hmem a).mp ha with rfl | ha <;> rcases (hmem b).mp hb with rfl | hb
    · rfl
    · exact hname.2 b hb hweight
    · exact (hname.2 a ha hweight.symm).symm
    · exact h.apart a ha b hb hweight
  entry other hother := (hmem other).mpr (Or.inr (h.entry other (hentry ▸ hother)))
  entered := hentered
  id other status id hpc := h.id other status id (hid other status id hpc)
  current other hother := by
    obtain ⟨hold, hread⟩ := hcurrent other hother
    have hcur := h.current other hold
    refine ⟨(hmem other).mpr (Or.inr hcur.mem), hread ▸ hcur.set, fun status hstatus => ?_,
      fun hnone => ?_⟩
    · show status = m.read other 0
      rw [hread]
      exact hcur.text status (htext ▸ hstatus)
    · obtain ⟨row, hrow, hweight, hstatus⟩ := hcur.shown fun status hstatus =>
        hnone status (htext.trans hstatus)
      exact ⟨row, hrow, hweight, hstatus.trans hread.symm⟩

/-- A name that is there already can come again. -/
theorem StatusStoreInv.admissible (h : StatusStoreInv sql s) (hmem : name ∈ s.mapMnameStatus) :
    Admissible sql s name :=
  ⟨h.fits name hmem, fun other hother => h.apart name hmem other hother⟩

theorem statusStoreInv_setStatus {status : MachineStatus} (h : StatusStoreInv sql s)
    (hname : Admissible sql s name) :
    StatusStoreInv sql
      { s.drop name with mapMnameStatus := s.mapMnameStatus.set name status.number } := by
  refine h.setMap name ?_ (fun other => Table.mem_set _ _ _ _) hname
    (fun other hother => ?_) rfl rfl (fun other hpc => ?_) fun _ _ _ hpc => hpc
  · refine h.range.set name ?_ ?_ <;> cases status <;> decide
  · obtain ⟨hold, hne⟩ := List.mem_filter.mp hother
    refine ⟨hold, ?_⟩
    rw [Table.read_set, if_neg (of_decide_eq_true hne)]
  · rw [Table.read_set]
    split
    · cases status <;> decide
    · exact h.entered other hpc

theorem statusStoreInv_touch (h : StatusStoreInv sql s) (hname : Admissible sql s name) :
    StatusStoreInv sql { s with mapMnameStatus := s.mapMnameStatus.touch name 0 } := by
  refine h.setMap name (h.range.touch name) (fun other => Table.mem_touch _ _ _ _) hname
    (fun other hother => ⟨hother, Table.read_touch_self _ _ _ _⟩) rfl rfl (fun other hpc => ?_)
    fun _ _ _ hpc => hpc
  rw [Table.read_touch_self]
  exact h.entered other hpc

theorem statusStoreInv_enter {machineId : Int} (h : StatusStoreInv sql s)
    (hstep : s.enter machineId = some t) : StatusStoreInv sql t := by
  unfold StatusStore.enter at hstep
  split at hstep
  · rename_i name hpc
    cases hstep
    have hmem : name ∈ s.mapMnameStatus := h.entry name (by rw [hpc]; rfl)
    have hset : ∀ other, (if s.mapMnameStatus.read name 0 = 0 then s.mapMnameStatus.set name 2
        else s.mapMnameStatus).read other 0
          = if other = name then counted (s.mapMnameStatus.read name 0)
            else s.mapMnameStatus.read other 0 := by
      intro other
      unfold counted
      by_cases hzero : s.mapMnameStatus.read name 0 = 0
      · rw [if_pos hzero, if_pos hzero, Table.read_set]
      · rw [if_neg hzero, if_neg hzero]
        split
        · rename_i heq
          rw [heq]
        · rfl
    refine h.setMap name ?_ (fun other => ?_) (h.admissible hmem)
      (fun other hother => ⟨hother, ?_⟩) (by rw [hpc]; rfl) (by rw [hpc]; rfl)
      (fun other hpc' => ?_) (fun _ _ _ hpc' => by cases hpc')
    · split
      · exact h.range.set name (by decide) (by decide)
      · exact h.range
    · split
      · exact Table.mem_set _ _ _ _
      · exact ⟨Or.inr, fun hother => hother.elim (fun heq => heq ▸ hmem) id⟩
    · rw [hset]
      split
      · rename_i heq
        have hne := (h.current other hother).set
        rw [heq] at hne ⊢
        exact if_neg hne
      · rfl
    · cases hpc'
      rw [hset, if_pos rfl]
      unfold counted
      split
      · decide
      · assumption
  · cases hstep

/-- A step to a place where no text is written keeps the invariant, if the table shows what has
been written. -/
theorem StatusStoreInv.leave {machine : List MachineRow} {pc : VisitPc} {machineId : Int}
    {current : List Bytes} (h : StatusStoreInv sql s)
    (htable : NameTable sql.toCharset (machine.map MachineRow.toRow))
    (hentry : ∀ other, pc.entry = some other → other ∈ s.mapMnameStatus)
    (hselect : ∀ other, pc ≠ .select other) (htext : pc.text = none)
    (hcurrent : ∀ other ∈ current, other ∈ s.current ∧
      StatusStore.Shows sql ⟨s.mapMnameStatus, machine, pc, machineId, current⟩ other) :
    StatusStoreInv sql ⟨s.mapMnameStatus, machine, pc, machineId, current⟩ where
  table := htable
  range := h.range
  fits := h.fits
  apart := h.apart
  entry := hentry
  entered other hpc := absurd hpc (hselect other)
  id other status id hpc := by
    obtain rfl : pc = .update other status id := hpc
    cases htext
  current other hother := by
    obtain ⟨hold, hshows⟩ := hcurrent other hother
    have hcur := h.current other hold
    refine ⟨hcur.mem, hcur.set, fun status hstatus => ?_, fun _ => hshows⟩
    exact absurd (htext.symm.trans hstatus) (by simp)

/-- A step that writes the text of the entry keeps it. -/
theorem StatusStoreInv.write {pc : VisitPc} {machineId : Int} (h : StatusStoreInv sql s)
    (hpc : s.pc = .select name) (hentry : pc.entry = some name)
    (htext : pc.text = some (name, s.mapMnameStatus.read name 0))
    (hid : ∀ other status id, pc = .update other status id → Names sql.same s.rows id name) :
    StatusStoreInv sql ⟨s.mapMnameStatus, s.machine, pc, machineId, name :: s.current⟩ where
  table := h.table
  range := h.range
  fits := h.fits
  apart := h.apart
  entry other hother := by
    obtain rfl := Option.some.inj (hentry.symm.trans hother)
    exact h.entry name (by rw [hpc]; rfl)
  entered other hselect := by
    obtain rfl : pc = .select other := hselect
    cases htext
  id other status id hupdate := by
    obtain rfl : pc = .update other status id := hupdate
    obtain rfl := Option.some.inj hentry
    exact hid _ status id rfl
  current other hother := by
    have htexts : ∀ status, pc.text = some (other, status) →
        status = s.mapMnameStatus.read other 0 := by
      intro status hstatus
      obtain ⟨rfl, hread⟩ := Prod.mk.inj (Option.some.inj (htext.symm.trans hstatus))
      exact hread.symm
    rcases List.mem_cons.mp hother with rfl | hother
    · exact ⟨h.entry other (by rw [hpc]; rfl), h.entered other hpc, htexts,
        fun hnone => absurd htext (hnone _)⟩
    · have hcur := h.current other hother
      exact ⟨hcur.mem, hcur.set, htexts, fun _ => hcur.shown (by rw [hpc]; nofun)⟩

theorem mem_of_next {other : Bytes} (h : (s.next name).entry = some other) :
    other ∈ s.mapMnameStatus := by
  unfold StatusStore.next at h
  split at h
  · cases h
  · rename_i x hnext
    obtain rfl := Option.some.inj h
    exact mem_of_nextEntry hnext

theorem next_text : (s.next name).text = none := by
  unfold StatusStore.next
  split <;> rfl

theorem next_ne_select {other : Bytes} : s.next name ≠ .select other := by
  unfold StatusStore.next
  split <;> nofun

theorem StatusStore.Shows.append {rows : List MachineRow} {pc : VisitPc} {machineId : Int}
    {current : List Bytes} (h : s.Shows sql name) :
    StatusStore.Shows sql ⟨s.mapMnameStatus, s.machine ++ rows, pc, machineId, current⟩ name :=
  h.imp fun _ hrow => ⟨List.mem_append_left _ hrow.1, hrow.2⟩

/-- Where no text is written yet, the table shows all of `current`. -/
theorem StatusStoreInv.shown (h : StatusStoreInv sql s) (htext : s.pc.text = none) :
    ∀ other ∈ s.current, other ∈ s.current ∧ s.Shows sql other := by
  intro other hother
  refine ⟨hother, (h.current other hother).shown fun status hstatus => ?_⟩
  rw [htext] at hstatus
  cases hstatus

/-- A visit ends, and the next entry is there, or none. -/
theorem StatusStoreInv.leaveToNext {machine : List MachineRow} {machineId : Int}
    {current : List Bytes} (h : StatusStoreInv sql s)
    (htable : NameTable sql.toCharset (machine.map MachineRow.toRow))
    (hcurrent : ∀ other ∈ current, other ∈ s.current ∧
      StatusStore.Shows sql ⟨s.mapMnameStatus, machine, s.next name, machineId, current⟩ other) :
    StatusStoreInv sql ⟨s.mapMnameStatus, machine, s.next name, machineId, current⟩ :=
  h.leave htable (fun _ => mem_of_next) (fun _ => next_ne_select) next_text hcurrent

/-- A statement has raised, and the pass is over. -/
theorem StatusStoreInv.stop {machineId : Int} {current : List Bytes} (h : StatusStoreInv sql s)
    (hcurrent : ∀ other ∈ current, other ∈ s.current ∧ s.Shows sql other) :
    StatusStoreInv sql ⟨s.mapMnameStatus, s.machine, .idle, machineId, current⟩ :=
  h.leave h.table (by rintro _ ⟨⟩) (by rintro _ ⟨⟩) rfl hcurrent

theorem statusStoreInv_select {reply : StoreReply} (h : StatusStoreInv sql s)
    (hstep : s.select sql reply = some t) : StatusStoreInv sql t := by
  unfold StatusStore.select at hstep
  split at hstep
  · rename_i name hpc
    have hmem : name ∈ s.mapMnameStatus := h.entry name (by rw [hpc]; rfl)
    have hshown := h.shown (by rw [hpc]; rfl)
    split at hstep
    · rename_i hanswers
      cases reply with
      | rows ids =>
          cases ids with
          | nil =>
              cases hstep
              exact h.write hpc rfl rfl (by rintro _ _ _ ⟨⟩)
          | cons id ids =>
              cases hstep
              refine h.write hpc rfl rfl fun _ _ _ hupdate => ?_
              cases hupdate
              exact hanswers.names_last (h.fits name hmem).plain (List.cons_ne_nil _ _) _
      | failed =>
          cases hstep
          exact h.leaveToNext h.table hshown
      | badQuery =>
          cases hstep
          exact h.stop hshown
    · cases hstep
  · rename_i name hpc
    have hmem : name ∈ s.mapMnameStatus := h.entry name (by rw [hpc]; rfl)
    have hshown := h.shown (by rw [hpc]; rfl)
    split at hstep
    · cases reply with
      | rows ids =>
          cases hstep
          refine h.leave h.table (fun other hother => ?_) (by rintro _ ⟨⟩) rfl hshown
          obtain rfl := Option.some.inj hother
          exact hmem
      | failed =>
          cases hstep
          exact h.leaveToNext h.table hshown
      | badQuery =>
          cases hstep
          exact h.stop hshown
    · cases hstep
  · cases hstep

/-- The text of another machine. -/
theorem StatusStore.Current.shown_of_ne {other : Bytes} {status : Int} (h : s.Current sql other)
    (htext : s.pc.text = some (name, status)) (hne : other ≠ name) : s.Shows sql other := by
  refine h.shown fun status' hstatus => hne ?_
  obtain ⟨rfl, -⟩ := Prod.mk.inj (Option.some.inj (htext.symm.trans hstatus))
  rfl

/-- Where the text of a machine has been of no use, the table shows the others. -/
theorem StatusStoreInv.shows_drop {status : Int} (h : StatusStoreInv sql s)
    (htext : s.pc.text = some (name, status)) :
    ∀ other ∈ s.current.filter fun other => other ≠ name,
      other ∈ s.current ∧ s.Shows sql other := by
  intro other hother
  obtain ⟨hold, hne⟩ := List.mem_filter.mp hother
  exact ⟨hold, (h.current other hold).shown_of_ne htext (of_decide_eq_true hne)⟩

/-- The row that an `INSERT` adds shows its machine. -/
theorem StatusStoreInv.shows_insert {status : Int} {row : Row} {pc : VisitPc} {machineId : Int}
    {current : List Bytes} {other : Bytes} (h : StatusStoreInv sql s)
    (htext : s.pc.text = some (name, status)) (hrow : Plain name → row.name = sql.machineName name)
    (hother : other ∈ s.current) :
    StatusStore.Shows sql ⟨s.mapMnameStatus, s.machine ++ [⟨row, unsignedColumn 8 status⟩], pc,
      machineId, current⟩ other := by
  have hcur := h.current other hother
  by_cases heq : other = name
  · subst heq
    have hfits := h.fits other hcur.mem
    refine ⟨_, List.mem_append_right _ (List.mem_singleton_self _), ?_, ?_⟩
    · rw [hrow hfits.plain]
      exact hfits.kept
    · rw [hcur.text status htext]
      exact unsignedColumn_of_range (h.range other)
  · exact (hcur.shown_of_ne htext heq).append

theorem statusStoreInv_insert {reply : ExecReply} {row : Row} (h : StatusStoreInv sql s)
    (hstep : s.insert sql reply row = some t) : StatusStoreInv sql t := by
  unfold StatusStore.insert at hstep
  split at hstep
  · rename_i name status hpc
    have hmem : name ∈ s.mapMnameStatus := h.entry name (by rw [hpc]; rfl)
    have htext : s.pc.text = some (name, status) := by rw [hpc]; rfl
    split at hstep
    · rename_i hadd
      cases hstep
      refine h.leave ?_ (fun other hother => ?_) (by rintro _ ⟨⟩) rfl
        fun other hother => ⟨hother, h.shows_insert htext hadd.2 hother⟩
      · rw [List.map_append]
        exact h.table.add hadd.1
      · obtain rfl := Option.some.inj hother
        exact hmem
    · cases hstep
  · rename_i name status hpc
    have hmem : name ∈ s.mapMnameStatus := h.entry name (by rw [hpc]; rfl)
    have hothers := h.shows_drop (by rw [hpc]; rfl)
    cases hstep
    refine h.leave h.table (fun other hother => ?_) (by rintro _ ⟨⟩) rfl hothers
    obtain rfl := Option.some.inj hother
    exact hmem
  · rename_i name status hpc
    have hothers := h.shows_drop (by rw [hpc]; rfl)
    cases hstep
    exact h.stop hothers
  · cases hstep

/-- The `UPDATE` of a machine shows it, and the id is that of no other one. -/
theorem StatusStoreInv.shows_update {status id : Int} {pc : VisitPc} {machineId : Int}
    {current : List Bytes} {other : Bytes} (h : StatusStoreInv sql s)
    (hpc : s.pc = .update name status id) (hother : other ∈ s.current) :
    StatusStore.Shows sql ⟨s.mapMnameStatus, setStatuses s.machine id fun _ => status, pc,
      machineId, current⟩ other := by
  have hmem : name ∈ s.mapMnameStatus := h.entry name (by rw [hpc]; rfl)
  have htext : s.pc.text = some (name, status) := by rw [hpc]; rfl
  have hnames := h.id name status id hpc
  have hcur := h.current other hother
  by_cases heq : other = name
  · subst heq
    obtain ⟨row, hrow, rfl, hsame⟩ := hnames
    obtain ⟨machineRow, hmachineRow, rfl⟩ := List.mem_map.mp hrow
    refine ⟨_, List.mem_map_of_mem hmachineRow, ?_, ?_⟩
    · rw [if_pos rfl]
      exact of_decide_eq_true hsame
    · rw [if_pos rfl, hcur.text status htext]
      exact unsignedColumn_of_range (h.range other)
  · obtain ⟨row, hrow, hweight, hstatus⟩ := hcur.shown_of_ne htext heq
    have hid : row.id ≠ id := fun hid => heq <| h.apart other hcur.mem name hmem <|
      hweight.symm.trans (weight_of_id h.table hnames (List.mem_map_of_mem hrow) hid)
    exact ⟨row, List.mem_map.mpr ⟨row, hrow, if_neg hid⟩, hweight, hstatus⟩

theorem statusStoreInv_update {reply : ExecReply} (h : StatusStoreInv sql s)
    (hstep : s.update sql reply = some t) : StatusStoreInv sql t := by
  unfold StatusStore.update at hstep
  have htable : ∀ {id : Int} {value : MachineRow → Int},
      NameTable sql.toCharset ((setStatuses s.machine id value).map MachineRow.toRow) := by
    intro id value
    rw [rows_setStatuses]
    exact h.table
  split at hstep
  · rename_i name status id hpc
    cases hstep
    exact h.leaveToNext htable fun other hother => ⟨hother, h.shows_update hpc hother⟩
  · rename_i name status id hpc
    have hothers := h.shows_drop (by rw [hpc]; rfl)
    cases hstep
    exact h.leaveToNext h.table hothers
  · rename_i name status id hpc
    have hothers := h.shows_drop (by rw [hpc]; rfl)
    cases hstep
    exact h.stop hothers
  · rename_i name id hpc
    have hmem : name ∈ s.mapMnameStatus := h.entry name (by rw [hpc]; rfl)
    have hshown := h.shown (by rw [hpc]; rfl)
    split at hstep
    · rename_i hexpression
      cases hstep
      refine h.leaveToNext htable fun other hother => ⟨hother, ?_⟩
      obtain ⟨-, row, hrow, hshows⟩ := hshown other hother
      -- the name is no expression, so there is no row to change
      have hid : row.id ≠ id := fun hid => by
        have hsome := hexpression row hrow hid
        rw [(h.fits name hmem).expression row] at hsome
        cases hsome
      exact ⟨row, List.mem_map.mpr ⟨row, hrow, if_neg hid⟩, hshows⟩
    · cases hstep
  · rename_i name id hpc
    have hshown := h.shown (by rw [hpc]; rfl)
    cases hstep
    exact h.leaveToNext h.table hshown
  · rename_i name id hpc
    have hshown := h.shown (by rw [hpc]; rfl)
    cases hstep
    exact h.stop hshown
  · cases hstep

theorem statusStoreInv_step {act : StatusStoreAction} (h : StatusStoreInv sql s)
    (hproper : act.Proper sql s) (hstep : statusStoreStep sql s act = some t) :
    StatusStoreInv sql t := by
  cases act with
  | setStatus name status =>
      cases hstep
      exact statusStoreInv_setStatus h hproper
  | touch name =>
      cases hstep
      exact statusStoreInv_touch h hproper
  | addRow row =>
      simp only [statusStoreStep] at hstep
      split at hstep
      · rename_i hadd
        cases hstep
        refine { h with table := ?_, id := ?_, current := ?_ }
        · show NameTable _ ((s.machine ++ [row]).map MachineRow.toRow)
          rw [List.map_append]
          exact h.table.add hadd
        · intro other status id hpc
          refine (h.id other status id hpc).mono ?_
          show s.rows ⊆ (s.machine ++ [row]).map MachineRow.toRow
          rw [List.map_append]
          exact List.subset_append_left _ _
        · intro other hother
          have hcur := h.current other hother
          exact ⟨hcur.mem, hcur.set, hcur.text, fun hnone => (hcur.shown hnone).append⟩
      · cases hstep
  | beginPass =>
      simp only [statusStoreStep] at hstep
      split at hstep
      · rename_i hpc
        have hshown := h.shown (by rw [hpc]; rfl)
        cases hstep
        split
        · exact h.stop hshown
        · rename_i x hnext
          refine h.leave h.table (fun other hother => ?_) (by rintro _ ⟨⟩) rfl hshown
          obtain rfl := Option.some.inj hother
          exact mem_of_nextEntry hnext
      · cases hstep
  | enter machineId => exact statusStoreInv_enter h hstep
  | select reply => exact statusStoreInv_select h hstep
  | insert reply row => exact statusStoreInv_insert h hstep
  | update reply => exact statusStoreInv_update h hstep

theorem statusStoreInv_start {machine : List MachineRow}
    (htable : NameTable sql.toCharset (machine.map MachineRow.toRow)) :
    StatusStoreInv sql (.start machine) where
  table := htable
  range name := by simp [StatusStore.start, Table.read]
  fits := by simp [StatusStore.start]
  apart := by simp [StatusStore.start]
  entry := nofun
  entered := nofun
  id := nofun
  current := nofun

/-! ### A pass -/

/-- No statement fails, but for the `UPDATE` whose status is no expression. -/
def StatusStoreAction.Succeeds (s : StatusStore) : StatusStoreAction → Prop
  | .select reply => reply ≠ .failed ∧ reply ≠ .badQuery
  | .insert reply _ => reply = .done
  | .update reply => match s.pc with
      | .updateNew _ _ => reply ≠ .badQuery
      | _ => reply = .done
  | _ => True

/-- The status of a machine has come into a text, or the iterator has not passed its entry. -/
def StatusStore.Covers (s : StatusStore) (name : Bytes) : Prop :=
  name ∈ s.current ∨ ∃ x, s.pc.entry = some x ∧ (x < name ∨ x = name ∧ s.pc.Before)

theorem covers_next {m : Table Bytes Int} {machine : List MachineRow} {last : Bytes}
    {machineId : Int} {current : List Bytes} (hmem : name ∈ s.mapMnameStatus) (hlt : last < name) :
    StatusStore.Covers ⟨m, machine, s.next last, machineId, current⟩ name := by
  have hit : ∀ x, some last = some x → x < name := fun x hx => Option.some.inj hx ▸ hlt
  obtain ⟨x, hnext, hle⟩ := nextEntry_le hmem hit
  have hpc : s.next last = .enter x := by
    unfold StatusStore.next
    rw [hnext]
  rw [hpc]
  refine Or.inr ⟨x, rfl, ?_⟩
  rcases List.le_iff_lt_or_eq.mp hle with hlt | heq
  · exact Or.inl hlt
  · exact Or.inr ⟨heq, trivial⟩

theorem covers_of_before {m : Table Bytes Int} {machine : List MachineRow} {pc : VisitPc}
    {machineId : Int} {current : List Bytes} {x : Bytes} (h : s.Covers name)
    (hentry : s.pc.entry = some x) (hentry' : pc.entry = some x)
    (hcurrent : ∀ other ∈ s.current, other ∈ current)
    (hwritten : s.pc.Before → pc.Before ∨ x ∈ current) :
    StatusStore.Covers ⟨m, machine, pc, machineId, current⟩ name := by
  rcases h with hmem | ⟨y, hy, hle⟩
  · exact Or.inl (hcurrent name hmem)
  obtain rfl := Option.some.inj (hentry.symm.trans hy)
  rcases hle with hlt | ⟨rfl, hbefore⟩
  · exact Or.inr ⟨x, hentry', Or.inl hlt⟩
  · exact (hwritten hbefore).elim (fun hpc => Or.inr ⟨x, hentry', Or.inr ⟨rfl, hpc⟩⟩) Or.inl

/-- The step that ends the visit of an entry. -/
theorem covers_of_next {m : Table Bytes Int} {machine : List MachineRow} {machineId : Int}
    {x : Bytes} (hmem : name ∈ s.mapMnameStatus) (h : s.Covers name)
    (hentry : s.pc.entry = some x) (hbefore : ¬ s.pc.Before) :
    StatusStore.Covers ⟨m, machine, s.next x, machineId, s.current⟩ name := by
  rcases h with hcurrent | ⟨y, hy, hlt | ⟨-, hpc⟩⟩
  · exact Or.inl hcurrent
  · obtain rfl := Option.some.inj (hentry.symm.trans hy)
    exact covers_next hmem hlt
  · exact absurd hpc hbefore

/-- Nobody sets the status of the machine. -/
def StatusStoreAction.Spares (name : Bytes) : StatusStoreAction → Prop
  | .setStatus other _ => other ≠ name
  | _ => True

/-- A step without a failure takes the iterator over no entry whose status is not written. -/
theorem covers_step {act : StatusStoreAction} (hmem : name ∈ s.mapMnameStatus)
    (h : s.Covers name) (hsucceeds : act.Succeeds s) (hspares : act.Spares name)
    (hstep : statusStoreStep sql s act = some t) : t.Covers name := by
  cases act with
  | setStatus other status =>
      cases hstep
      refine h.imp_left fun hcurrent => List.mem_filter.mpr ⟨hcurrent, ?_⟩
      exact decide_eq_true (Ne.symm hspares)
  | touch other =>
      cases hstep
      exact h
  | addRow row =>
      simp only [statusStoreStep] at hstep
      split at hstep <;> cases hstep
      exact h
  | beginPass =>
      simp only [statusStoreStep] at hstep
      split at hstep
      · rename_i hpc
        cases hstep
        refine Or.inl (h.resolve_right ?_)
        rintro ⟨x, hx, -⟩
        rw [hpc] at hx
        cases hx
      · cases hstep
  | enter machineId =>
      simp only [statusStoreStep, StatusStore.enter] at hstep
      split at hstep
      · rename_i x hpc
        cases hstep
        exact covers_of_before h (by rw [hpc]; rfl) rfl (fun _ hother => hother)
          fun _ => Or.inl trivial
      · cases hstep
  | select reply =>
      simp only [statusStoreStep, StatusStore.select] at hstep
      split at hstep
      · rename_i x hpc
        split at hstep
        · rcases reply with (_ | ⟨id, ids⟩) | _ | _
          · cases hstep
            exact covers_of_before h (by rw [hpc]; rfl) rfl (fun _ => List.mem_cons_of_mem _)
              fun _ => Or.inr List.mem_cons_self
          · cases hstep
            exact covers_of_before h (by rw [hpc]; rfl) rfl (fun _ => List.mem_cons_of_mem _)
              fun _ => Or.inr List.mem_cons_self
          · exact absurd rfl hsucceeds.1
          · exact absurd rfl hsucceeds.2
        · cases hstep
      · rename_i x hpc
        split at hstep
        · cases reply with
          | rows ids =>
              cases hstep
              exact covers_of_before h (by rw [hpc]; rfl) rfl (fun _ hother => hother)
                fun hbefore => by rw [hpc] at hbefore; exact hbefore.elim
          | failed => exact absurd rfl hsucceeds.1
          | badQuery => exact absurd rfl hsucceeds.2
        · cases hstep
      · cases hstep
  | insert reply row =>
      obtain rfl : reply = .done := hsucceeds
      simp only [statusStoreStep, StatusStore.insert] at hstep
      split at hstep
      · rename_i x status hpc hreply
        split at hstep <;> cases hstep
        exact covers_of_before h (by rw [hpc]; rfl) rfl (fun _ hother => hother)
          fun hbefore => by rw [hpc] at hbefore; exact hbefore.elim
      all_goals first | (rename_i hreply; cases hreply) | cases hstep
  | update reply =>
      simp only [statusStoreStep, StatusStore.update] at hstep
      simp only [StatusStoreAction.Succeeds] at hsucceeds
      cases hpc : s.pc with
      | update x status id =>
          rw [hpc] at hsucceeds
          obtain rfl : reply = .done := hsucceeds
          rw [hpc] at hstep
          cases hstep
          exact covers_of_next hmem h (by rw [hpc]; rfl) (by rw [hpc]; exact not_false)
      | updateNew x id =>
          rw [hpc] at hsucceeds hstep
          cases reply with
          | done =>
              dsimp only at hstep
              split at hstep <;> cases hstep
              exact covers_of_next hmem h (by rw [hpc]; rfl) (by rw [hpc]; exact not_false)
          | failed =>
              cases hstep
              exact covers_of_next hmem h (by rw [hpc]; rfl) (by rw [hpc]; exact not_false)
          | badQuery => exact absurd rfl hsucceeds
      | _ =>
          rw [hpc] at hstep
          cases reply <;> cases hstep

/-- What a step does to the map. -/
theorem map_step {act : StatusStoreAction} (hstep : statusStoreStep sql s act = some t) :
    t.mapMnameStatus = s.mapMnameStatus ∨
      (∃ other status, act = .setStatus other status ∧
        t.mapMnameStatus = s.mapMnameStatus.set other status.number) ∨
      (∃ other, t.mapMnameStatus = s.mapMnameStatus.touch other 0) ∨
      ∃ other, s.mapMnameStatus.read other 0 = 0 ∧
        t.mapMnameStatus = s.mapMnameStatus.set other 2 := by
  cases act with
  | setStatus other status =>
      cases hstep
      exact Or.inr (Or.inl ⟨other, status, rfl, rfl⟩)
  | touch other =>
      cases hstep
      exact Or.inr (Or.inr (Or.inl ⟨other, rfl⟩))
  | addRow row =>
      simp only [statusStoreStep] at hstep
      split at hstep <;> cases hstep
      exact Or.inl rfl
  | beginPass =>
      simp only [statusStoreStep] at hstep
      split at hstep <;> cases hstep
      exact Or.inl rfl
  | enter machineId =>
      simp only [statusStoreStep, StatusStore.enter] at hstep
      split at hstep <;> cases hstep
      dsimp only
      split
      · rename_i hzero
        exact Or.inr (Or.inr (Or.inr ⟨_, hzero, rfl⟩))
      · exact Or.inl rfl
  | select reply =>
      simp only [statusStoreStep, StatusStore.select] at hstep
      split at hstep
      all_goals first | cases hstep | split at hstep
      all_goals rcases reply with (_ | _) | _ | _ <;> cases hstep <;> exact Or.inl rfl
  | insert reply row =>
      simp only [statusStoreStep, StatusStore.insert] at hstep
      split at hstep
      · split at hstep <;> cases hstep
        exact Or.inl rfl
      · cases hstep
        exact Or.inl rfl
      · cases hstep
        exact Or.inl rfl
      · cases hstep
  | update reply =>
      simp only [statusStoreStep, StatusStore.update] at hstep
      split at hstep
      case h_4 =>
        split at hstep <;> cases hstep
        exact Or.inl rfl
      case h_7 => cases hstep
      all_goals
        cases hstep
        exact Or.inl rfl

/-- Entries stay in the map. -/
theorem mem_step {act : StatusStoreAction} (hmem : name ∈ s.mapMnameStatus)
    (hstep : statusStoreStep sql s act = some t) : name ∈ t.mapMnameStatus := by
  rcases map_step hstep with h | ⟨other, status, -, h⟩ | ⟨other, h⟩ | ⟨other, -, h⟩
  · exact h ▸ hmem
  · exact h ▸ (Table.mem_set _ _ _ _).mpr (Or.inr hmem)
  · exact h ▸ (Table.mem_touch _ _ _ _).mpr (Or.inr hmem)
  · exact h ▸ (Table.mem_set _ _ _ _).mpr (Or.inr hmem)

/-- The status of a machine stays, up to that of an unset one. -/
theorem counted_step {act : StatusStoreAction} (hspares : act.Spares name)
    (hstep : statusStoreStep sql s act = some t) :
    counted (t.mapMnameStatus.read name 0) = counted (s.mapMnameStatus.read name 0) := by
  rcases map_step hstep with h | ⟨other, status, rfl, h⟩ | ⟨other, h⟩ | ⟨other, hzero, h⟩
  · rw [h]
  · rw [h, Table.read_set, if_neg (Ne.symm hspares)]
  · rw [h, Table.read_touch_self]
  · rw [h, Table.read_set]
    split
    · rename_i heq
      rw [heq, hzero]
      rfl
    · rfl

/-- The map has an entry of the machine with this status, or 2 if it is unset. -/
structure NotedInv (sql : MachineSql) (name : Bytes) (status : Int) (s : StatusStore) : Prop where
  inv : StatusStoreInv sql s
  mem : name ∈ s.mapMnameStatus
  status : counted (s.mapMnameStatus.read name 0) = counted status

theorem NotedInv.step {status : Int} {act : StatusStoreAction} (h : NotedInv sql name status s)
    (hproper : act.Proper sql s) (hspares : act.Spares name)
    (hstep : statusStoreStep sql s act = some t) : NotedInv sql name status t where
  inv := statusStoreInv_step h.inv hproper hstep
  mem := mem_step h.mem hstep
  status := (counted_step hspares hstep).trans h.status

/-- What is kept during a pass besides. -/
structure PassInv (sql : MachineSql) (name : Bytes) (status : Int) (s : StatusStore) : Prop
    extends NotedInv sql name status s where
  covers : s.Covers name

theorem PassInv.step {status : Int} {act : StatusStoreAction} (h : PassInv sql name status s)
    (hproper : act.Proper sql s) (hsucceeds : act.Succeeds s) (hspares : act.Spares name)
    (hstep : statusStoreStep sql s act = some t) : PassInv sql name status t where
  toNotedInv := h.toNotedInv.step hproper hspares hstep
  covers := covers_step h.mem h.covers hsucceeds hspares hstep

/-- A pass begins at the first entry. -/
theorem NotedInv.beginPass {status : Int} (h : NotedInv sql name status s)
    (hstep : statusStoreStep sql s .beginPass = some t) : PassInv sql name status t where
  toNotedInv := by
    refine h.step ?_ ?_ hstep <;> trivial
  covers := by
    have hfirst : ∀ last, (none : Option Bytes) = some last → last < name := nofun
    obtain ⟨x, hnext, hle⟩ := nextEntry_le h.mem hfirst
    simp only [statusStoreStep, hnext] at hstep
    split at hstep <;> cases hstep
    refine Or.inr ⟨x, rfl, ?_⟩
    rcases List.le_iff_lt_or_eq.mp hle with hlt | heq
    · exact Or.inl hlt
    · exact Or.inr ⟨heq, trivial⟩

/-- At the end of a pass the table shows the status. -/
theorem PassInv.shows {status : Int} (h : PassInv sql name status s) (hidle : s.pc = .idle) :
    s.shown sql name = [counted status] := by
  have hcurrent : name ∈ s.current := by
    refine h.covers.resolve_right ?_
    rintro ⟨x, hx, -⟩
    rw [hidle] at hx
    cases hx
  have hcur := h.inv.current name hcurrent
  obtain ⟨row, hrow, hweight, hstatus⟩ := hcur.shown (by rw [hidle]; nofun)
  have hnames := h.inv.table.names
  rw [StatusStore.rows, List.map_map] at hnames
  have hone : s.machine.filter (fun other => sql.weight other.name = sql.weight row.name) = [row] :=
    filter_key_eq hnames hrow
  unfold StatusStore.shown
  rw [← hweight, hone, List.map_singleton, hstatus, ← h.status]
  exact congrArg (fun status => [status]) (if_neg hcur.set).symm

/-- What is asked of the actions of a pass that is to write the status of a machine. -/
def StatusStoreAction.Undisturbed (sql : MachineSql) (name : Bytes) (s : StatusStore)
    (act : StatusStoreAction) : Prop :=
  act.Proper sql s ∧ act.Succeeds s ∧ act.Spares name

variable {machine : List MachineRow} {acts pass : List StatusStoreAction}

/-- After a pass in which no statement fails, the table has exactly one row of every machine that
was in the map when the pass began and whose status has not been set since, with this status, or 2
if it was unset. What happened before is of no matter, nor are the other statuses and rows that
come. -/
theorem pass_shows (htable : NameTable sql.toCharset (machine.map MachineRow.toRow))
    (hproper : AllSteps (statusStoreStep sql) (fun s act => act.Proper sql s) acts (.start machine))
    (hacts : run (statusStoreStep sql) acts (.start machine) = some s)
    (hmem : name ∈ s.mapMnameStatus)
    (hundisturbed : AllSteps (statusStoreStep sql) (fun s act => act.Undisturbed sql name s)
      (.beginPass :: pass) s)
    (hpass : run (statusStoreStep sql) (.beginPass :: pass) s = some t) (hidle : t.pc = .idle) :
    t.shown sql name = [counted (s.mapMnameStatus.read name 0)] := by
  have hinv := run_invariant_of_allSteps (fun _ _ _ => statusStoreInv_step)
    (statusStoreInv_start htable) hproper hacts
  have hnoted : NotedInv sql name (s.mapMnameStatus.read name 0) s := ⟨hinv, hmem, rfl⟩
  obtain ⟨u, hu, hut⟩ := run_cons_eq_some.mp hpass
  have hend := run_invariant_of_allSteps
    (fun _ act _ hs (hok : act.Undisturbed sql name _) hstep =>
      PassInv.step hs hok.1 hok.2.1 hok.2.2 hstep)
    (hnoted.beginPass hu) (hundisturbed.2 u hu) hut
  exact hend.shows hidle

/-- A database in which every name is its own weight, columns keep all of it, and none is an
expression. -/
def plainSql : MachineSql where
  weight := id
  userName := id
  machineName := id
  expression _ _ := none

/-- `pc` has been set, and the table has no rows. -/
def pcLoggedIn : StatusStore := ⟨pcMap 1, [], .idle, 0, []⟩

/-- A pass that inserts it. -/
def passInsertsPc : List StatusStoreAction :=
  [.beginPass, .enter 0, .select (.rows []), .insert .done ⟨5, [ch 'p', ch 'c']⟩,
    .select (.rows [5]), .update .failed]

theorem pass_shows_inserted : ∃ t,
    run (statusStoreStep plainSql) passInsertsPc pcLoggedIn = some t ∧
      t.shown plainSql [ch 'p', ch 'c'] = [1] := by
  have htable : NameTable plainSql.toCharset (([] : List MachineRow).map MachineRow.toRow) :=
    ⟨List.nodup_nil, List.nodup_nil⟩
  have hproper : AllSteps (statusStoreStep plainSql) (fun s act => act.Proper plainSql s)
      [.setStatus [ch 'p', ch 'c'] .loggedIn] (.start []) :=
    ⟨⟨⟨by decide, rfl, fun _ => rfl⟩, by simp [StatusStore.start]⟩, fun _ _ => trivial⟩
  have hundisturbed : AllSteps (statusStoreStep plainSql)
      (fun s act => act.Undisturbed plainSql [ch 'p', ch 'c'] s) passInsertsPc pcLoggedIn := by
    refine ⟨⟨trivial, trivial, trivial⟩, fun _ hu => ⟨⟨trivial, trivial, trivial⟩, fun _ hv =>
      ⟨⟨trivial, ?_, trivial⟩, fun _ hw => ⟨⟨trivial, rfl, trivial⟩, fun _ hx =>
      ⟨⟨trivial, ?_, trivial⟩, fun _ hy => ⟨⟨trivial, ?_, trivial⟩, fun _ _ => trivial⟩⟩⟩⟩⟩⟩
    · exact ⟨nofun, nofun⟩
    · exact ⟨nofun, nofun⟩
    · cases hu
      cases hv
      cases hw
      cases hx
      cases hy
      exact nofun
  have hend : (run (statusStoreStep plainSql) passInsertsPc pcLoggedIn).map StatusStore.pc
      = some .idle := by decide +kernel
  obtain ⟨t, hrun, hidle⟩ := Option.map_eq_some_iff.mp hend
  exact ⟨t, hrun, pass_shows htable hproper rfl (by decide) hundisturbed hrun hidle⟩

end

/-! ### The statements -/

/-- The statement that is handed to the database at a place. -/
def StatusStore.statement (s : StatusStore) : Option Statement :=
  match s.pc with
  | .idle | .enter _ => none
  | .select name | .selectNew name => some (.selectMachine name)
  | .insert name status => some (.insertMachine name status)
  | .updateNew name id => some (.updateMachine name true id)
  | .update _ status id => some (.updateMachine (printDec status) (status ≠ 3) id)

/-- The statements that are handed in a run of answers. -/
def passStatements (sql : MachineSql) : List StatusStoreAction → StatusStore → List Statement
  | [], _ => []
  | act :: acts, s =>
      s.statement.toList ++ ((statusStoreStep sql s act).map (passStatements sql acts)).getD []

/-- The answers from the second `SELECT` on. -/
def newMachineAnswers (r : VisitReplies) : List StatusStoreAction :=
  .select r.newMachine ::
    match r.newMachine with
    | .rows _ => [.update r.update]
    | .failed | .badQuery => []

/-- The answers at an entry, where `row` is what an `INSERT` adds. -/
def visitAnswers (r : VisitReplies) (row : Row) : List StatusStoreAction :=
  .select r.machine ::
    match r.machine with
    | .rows [] =>
        .insert r.insert row ::
          match r.insert with
          | .badQuery => []
          | .done | .failed => newMachineAnswers r
    | .rows (_ :: _) => [.update r.update]
    | .failed | .badQuery => []

section
variable {sql : MachineSql} {s t : StatusStore} {name : Bytes} {r : VisitReplies} {row : Row}

theorem passStatements_cons {act : StatusStoreAction} {acts : List StatusStoreAction}
    {q : Statement} (hq : s.statement = some q) (hstep : statusStoreStep sql s act = some t) :
    passStatements sql (act :: acts) s = q :: passStatements sql acts t := by
  rw [passStatements, hq, hstep]
  rfl

/-- The last `UPDATE` of a visit. -/
theorem passStatements_update {q : Statement} (hq : s.statement = some q)
    (hrun : run (statusStoreStep sql) [.update r.update] s = some t)
    (hpc : (∃ status id, s.pc = .update name status id) ∨ ∃ id, s.pc = .updateNew name id) :
    passStatements sql [.update r.update] s = [q] ∧
      t.pc = if r.update = .badQuery then .idle else s.next name := by
  obtain ⟨u, hu, hut⟩ := run_cons_eq_some.mp hrun
  cases hut
  rw [passStatements_cons hq hu]
  refine ⟨rfl, ?_⟩
  simp only [statusStoreStep, StatusStore.update] at hu
  rcases hpc with ⟨status, id, hpc⟩ | ⟨id, hpc⟩
  · rw [hpc] at hu
    cases hreply : r.update <;> rw [hreply] at hu <;> cases hu <;> rfl
  · rw [hpc] at hu
    cases hreply : r.update <;> rw [hreply] at hu
    · dsimp only at hu
      split at hu <;> cases hu
      rfl
    all_goals
      cases hu
      rfl

/-- The end of a visit, from the second `SELECT` on. -/
theorem passStatements_newMachine (hpc : s.pc = .selectNew name) (hid : s.machineId = r.machineId)
    (hrun : run (statusStoreStep sql) (newMachineAnswers r) s = some t) :
    passStatements sql (newMachineAnswers r) s = .selectMachine name ::
        (match r.newMachine with
          | .rows ids => [.updateMachine name true (ids.getLastD r.machineId)]
          | .failed | .badQuery => []) ∧
      t.pc = (match r.newMachine with
        | .rows _ => if r.update = .badQuery then .idle else s.next name
        | .failed => s.next name
        | .badQuery => .idle) := by
  unfold newMachineAnswers at *
  obtain ⟨u, hu, hut⟩ := run_cons_eq_some.mp hrun
  have hq : s.statement = some (.selectMachine name) := by rw [StatusStore.statement, hpc]
  rw [passStatements_cons hq hu]
  simp only [statusStoreStep, StatusStore.select, hpc] at hu
  split at hu
  · cases hreply : r.newMachine with
    | rows ids =>
        simp only [hreply] at hu hut ⊢
        obtain rfl := Option.some.inj hu
        obtain ⟨hstatements, htpc⟩ := passStatements_update rfl hut (Or.inr ⟨_, rfl⟩)
        rw [hstatements, htpc, hid]
        exact ⟨rfl, rfl⟩
    | failed | badQuery =>
        simp only [hreply] at hu hut ⊢
        cases hu
        cases hut
        exact ⟨rfl, rfl⟩
  · cases hu

/-- A visit hands the statements of `visitEntry` for the answers that it gets, and goes on to the
next entry if that does. -/
theorem passStatements_eq_visitEntry (hpc : s.pc = .select name) (hid : s.machineId = r.machineId)
    (hrun : run (statusStoreStep sql) (visitAnswers r row) s = some t) :
    passStatements sql (visitAnswers r row) s
        = (visitEntry r name (s.mapMnameStatus.read name 0)).1 ∧
      t.pc = if (visitEntry r name (s.mapMnameStatus.read name 0)).2 then s.next name
        else .idle := by
  unfold visitAnswers visitEntry at *
  obtain ⟨u, hu, hut⟩ := run_cons_eq_some.mp hrun
  have hq : s.statement = some (.selectMachine name) := by rw [StatusStore.statement, hpc]
  rw [passStatements_cons hq hu]
  simp only [statusStoreStep, StatusStore.select, hpc] at hu
  split at hu
  · cases hreply : r.machine with
    | rows ids =>
        cases ids with
        | nil =>
            simp only [hreply] at hu hut ⊢
            obtain rfl := Option.some.inj hu
            obtain ⟨v, hv, hvt⟩ := run_cons_eq_some.mp hut
            rw [passStatements_cons rfl hv]
            simp only [statusStoreStep, StatusStore.insert] at hv
            cases hinsert : r.insert with
            | badQuery =>
                simp only [hinsert] at hv hvt ⊢
                cases hv
                cases hvt
                exact ⟨rfl, rfl⟩
            | done | failed =>
                simp only [hinsert] at hv hvt ⊢
                have hplace : v.pc = .selectNew name ∧ v.machineId = r.machineId ∧
                    v.mapMnameStatus = s.mapMnameStatus := by
                  first
                  | split at hv <;> cases hv
                    exact ⟨rfl, hid, rfl⟩
                  | cases hv
                    exact ⟨rfl, hid, rfl⟩
                obtain ⟨hvpc, hvid, hvmap⟩ := hplace
                obtain ⟨hstatements, htpc⟩ := passStatements_newMachine hvpc hvid hvt
                have hnext : v.next name = s.next name := by rw [StatusStore.next, hvmap]; rfl
                rw [hstatements, htpc, hnext]
                cases r.newMachine <;> cases r.update <;> exact ⟨rfl, rfl⟩
        | cons id ids =>
            simp only [hreply] at hu hut ⊢
            obtain rfl := Option.some.inj hu
            obtain ⟨hstatements, htpc⟩ := passStatements_update rfl hut (Or.inl ⟨_, _, rfl⟩)
            rw [hstatements, htpc, hid]
            cases r.update <;> exact ⟨rfl, rfl⟩
    | failed | badQuery =>
        simp only [hreply] at hu hut ⊢
        cases hu
        cases hut
        exact ⟨rfl, rfl⟩
  · cases hu

end

end Monitoring.Server
