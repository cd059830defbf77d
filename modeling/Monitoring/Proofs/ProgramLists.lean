import Monitoring.Proofs.Distribution
import Monitoring.Server.ProgramLists

/-!
# `Monitoring.Proofs.ProgramLists`: whose names an entry is made of

The Windows entry of a bit position is made of its Windows row (`lookup_windowsList`). The Linux
entry of a row that is not primary starts with the string that the Windows branch has left behind,
so it depends on the Windows row, and on which of the two comes first (`lookup_linuxList`).
`ownRows_iff` says for which tables this does not show.

`setUp_windowsList` leads to the lists that `Monitoring.Proofs.Distribution` hands to the clients.
-/

set_option autoImplicit false

namespace Monitoring.Server

open Monitoring.Lib

/-! ### Rows and entries -/

/-- The entry that the row stands for. -/
def ProgramRow.entry (row : ProgramRow) : Bytes :=
  if row.primaryPname = 1 then row.programPname
  else row.secondaryPname ++ [ch ':'] ++ row.programPname

/-- The entry that the Linux branch makes of it. -/
def ProgramRow.linuxEntry (row : ProgramRow) (wpname : Bytes) : Bytes :=
  if row.primaryPname = 1 then row.programPname else wpname ++ [ch ':'] ++ row.programPname

/-- The row of an operating system, at a bit position. -/
def ownRow (programs : List ProgramRow) (os i : Int) : Option ProgramRow :=
  programs.find? fun row => row.bitPos = i ∧ row.programOS = os

/-- The entry that the table asks for. -/
def programEntry (programs : List ProgramRow) (os i : Int) : Bytes :=
  ((ownRow programs os i).map ProgramRow.entry).getD []

/-- Each bit position has at most one row for an operating system. -/
def OneRowPerOs (programs : List ProgramRow) : Prop :=
  programs.Pairwise fun row row' => row.bitPos = row'.bitPos → row.programOS ≠ row'.programOS

instance (programs : List ProgramRow) : Decidable (OneRowPerOs programs) :=
  inferInstanceAs (Decidable (programs.Pairwise _))

section
variable {programs : List ProgramRow} {select : Int → List ProgramRow} {os i : Int}
  {row : ProgramRow}

theorem ownRow_eq_some_iff (hone : OneRowPerOs programs) :
    ownRow programs os i = some row ↔
      row ∈ programs ∧ row.bitPos = i ∧ row.programOS = os := by
  unfold ownRow
  constructor
  · intro h
    exact ⟨List.mem_of_find?_eq_some h, by simpa using List.find?_some h⟩
  · rintro ⟨hmem, hi, hos⟩
    have hsome : (programs.find? fun row => row.bitPos = i ∧ row.programOS = os).isSome := by
      rw [List.find?_isSome]
      exact ⟨row, hmem, by simp [hi, hos]⟩
    obtain ⟨found, hfound⟩ := Option.isSome_iff_exists.mp hsome
    have hkey : found.bitPos = i ∧ found.programOS = os := by simpa using List.find?_some hfound
    have : Std.Symm fun row row' : ProgramRow =>
        row.bitPos = row'.bitPos → row.programOS ≠ row'.programOS :=
      ⟨fun _ _ h hbit => (h hbit.symm).symm⟩
    -- two rows with this key would be one too many
    by_contra hne
    have hdiff : found ≠ row := fun h => hne (h ▸ hfound)
    exact hone.forall (List.mem_of_find?_eq_some hfound) hmem hdiff
      (hkey.1.trans hi.symm) (hkey.2.trans hos.symm)

/-- The rows of a bit position are those of the table. -/
theorem Selects.mem_iff (hsel : Selects programs select) :
    row ∈ select i ↔ row ∈ programs ∧ row.bitPos = i := by
  rw [(hsel i).mem_iff, List.mem_filter, decide_eq_true_eq]

/-- The row of an operating system, among the rows that are returned. -/
theorem find?_select (hone : OneRowPerOs programs) (hsel : Selects programs select) :
    (select i).find? (fun row => row.programOS = os) = ownRow programs os i := by
  cases hfind : (select i).find? fun row => row.programOS = os with
  | some row =>
      have hmem := hsel.mem_iff.mp (List.mem_of_find?_eq_some hfind)
      exact ((ownRow_eq_some_iff hone).mpr
        ⟨hmem.1, hmem.2, by simpa using List.find?_some hfind⟩).symm
  | none =>
      symm
      rw [Option.eq_none_iff_forall_ne_some]
      intro row hrow
      obtain ⟨hmem, hi, hos⟩ := (ownRow_eq_some_iff hone).mp hrow
      exact absurd hos
        (by simpa using List.find?_eq_none.mp hfind row (hsel.mem_iff.mpr ⟨hmem, hi⟩))

/-- The rows of a bit position belong to different operating systems. -/
theorem select_distinct (hone : OneRowPerOs programs) (hsel : Selects programs select) (i : Int) :
    (select i).Pairwise fun row row' => row.programOS ≠ row'.programOS := by
  refine ((hsel i).pairwise_iff fun h => Ne.symm h).mpr ((hone.filter _).imp_of_mem ?_)
  intro row row' hrow hrow' h
  have hbit : row.bitPos = i := by simpa using (List.mem_filter.mp hrow).2
  have hbit' : row'.bitPos = i := by simpa using (List.mem_filter.mp hrow').2
  exact h (hbit.trans hbit'.symm)

end

/-! ### The loop over the rows of a bit position -/

section
variable {i : Int} {s : RowLoop} {row : ProgramRow} {rows : List ProgramRow}

theorem rowPass_windows (h : row.programOS = 1) :
    rowPass i s row = { s with
      wpname := row.entry
      lists := { s.lists with windowsList := s.lists.windowsList.set i row.entry } } :=
  if_pos h

theorem rowPass_linux (h : row.programOS = 2) :
    rowPass i s row = { s with
      lpname := row.linuxEntry s.wpname
      lists := { s.lists with
        linuxList := s.lists.linuxList.set i (row.linuxEntry s.wpname) } } := by
  unfold rowPass
  rw [if_neg (by rw [h]; decide), if_pos h]
  rfl

/-- Only Windows rows write to the list of Windows, and to its string. -/
theorem rowPass_keeps_windows (h : row.programOS ≠ 1) :
    (rowPass i s row).wpname = s.wpname ∧
      (rowPass i s row).lists.windowsList = s.lists.windowsList := by
  by_cases hlinux : row.programOS = 2
  · rw [rowPass_linux hlinux]
    exact ⟨rfl, rfl⟩
  · unfold rowPass
    rw [if_neg h, if_neg hlinux]
    exact ⟨rfl, rfl⟩

/-- Only Linux rows write to the list of Linux. -/
theorem rowPass_keeps_linux (h : row.programOS ≠ 2) :
    (rowPass i s row).lists.linuxList = s.lists.linuxList := by
  by_cases hwindows : row.programOS = 1
  · rw [rowPass_windows hwindows]
  · unfold rowPass
    rw [if_neg hwindows, if_neg h]

theorem foldl_keeps_windows (h : ∀ row ∈ rows, row.programOS ≠ 1) :
    (rows.foldl (rowPass i) s).wpname = s.wpname ∧
      (rows.foldl (rowPass i) s).lists.windowsList = s.lists.windowsList := by
  induction rows generalizing s with
  | nil => exact ⟨rfl, rfl⟩
  | cons row rows ih =>
      have hrow := rowPass_keeps_windows (i := i) (s := s) (h row List.mem_cons_self)
      have hrows := ih (s := rowPass i s row) fun r hr => h r (List.mem_cons_of_mem _ hr)
      exact ⟨hrows.1.trans hrow.1, hrows.2.trans hrow.2⟩

theorem foldl_keeps_linux (h : ∀ row ∈ rows, row.programOS ≠ 2) :
    (rows.foldl (rowPass i) s).lists.linuxList = s.lists.linuxList := by
  induction rows generalizing s with
  | nil => rfl
  | cons row rows ih =>
      have hrow := rowPass_keeps_linux (i := i) (s := s) (h row List.mem_cons_self)
      exact (ih fun r hr => h r (List.mem_cons_of_mem _ hr)).trans hrow

/-- With at most one Windows row, the string and the list have its entry behind the loop. -/
theorem foldl_windows (h : rows.Pairwise fun row row' => row.programOS ≠ row'.programOS) :
    (rows.foldl (rowPass i) s).wpname
        = ((rows.find? fun row => row.programOS = 1).map ProgramRow.entry).getD s.wpname ∧
      (rows.foldl (rowPass i) s).lists.windowsList
        = s.lists.windowsList.assign i
            ((rows.find? fun row => row.programOS = 1).map ProgramRow.entry) := by
  induction rows generalizing s with
  | nil => exact ⟨rfl, rfl⟩
  | cons row rows ih =>
      obtain ⟨hrow, hrows⟩ := List.pairwise_cons.mp h
      rw [List.foldl_cons]
      by_cases hos : row.programOS = 1
      · -- no other row touches the string or the list
        have hother : ∀ r ∈ rows, r.programOS ≠ 1 := fun r hr => hos ▸ (hrow r hr).symm
        rw [List.find?_cons_of_pos (by simpa using hos), (foldl_keeps_windows hother).1,
          (foldl_keeps_windows hother).2, rowPass_windows hos]
        exact ⟨rfl, rfl⟩
      · have hkeeps := rowPass_keeps_windows (i := i) (s := s) hos
        rw [List.find?_cons_of_neg (by simpa using hos), ← hkeeps.1, ← hkeeps.2]
        exact ih hrows

/-- With one Linux row, the list has the entry that is made with the string as it is then. -/
theorem foldl_linux {before after : List ProgramRow} (hrow : row.programOS = 2)
    (hbefore : ∀ r ∈ before, r.programOS ≠ 2) (hafter : ∀ r ∈ after, r.programOS ≠ 2) :
    ((before ++ row :: after).foldl (rowPass i) s).lists.linuxList
      = s.lists.linuxList.set i (row.linuxEntry (before.foldl (rowPass i) s).wpname) := by
  rw [List.foldl_append, List.foldl_cons, foldl_keeps_linux hafter, rowPass_linux hrow]
  exact congrArg (fun t => Table.set t i _) (foldl_keeps_linux hbefore)

end

/-! ### The lists -/

/-- The Windows string when the Linux row comes. -/
def wpnameBefore (rows : List ProgramRow) : Bytes :=
  (((rows.takeWhile fun row => row.programOS ≠ 2).find? fun row => row.programOS = 1).map
    ProgramRow.entry).getD []

section
variable {programs : List ProgramRow} {select : Int → List ProgramRow} {i : Int}
  {lists : ProgramLists}

/-- What the rows of a bit position do to the list of Windows. -/
theorem bitPass_windows (hone : OneRowPerOs programs) (hsel : Selects programs select) :
    (bitPass select lists i).windowsList
      = lists.windowsList.assign i ((ownRow programs 1 i).map ProgramRow.entry) := by
  rw [← find?_select hone hsel]
  exact (foldl_windows (select_distinct hone hsel i)).2

/-- What they do to the list of Linux. -/
theorem bitPass_linux (hone : OneRowPerOs programs) (hsel : Selects programs select) :
    (bitPass select lists i).linuxList
      = lists.linuxList.assign i
          ((ownRow programs 2 i).map fun row => row.linuxEntry (wpnameBefore (select i))) := by
  have hdistinct := select_distinct hone hsel i
  rw [← find?_select hone hsel]
  unfold bitPass
  cases hfind : (select i).find? fun row => row.programOS = 2 with
  | none =>
      refine foldl_keeps_linux fun row hrow => ?_
      simpa using List.find?_eq_none.mp hfind row hrow
  | some row =>
      obtain ⟨hrow, before, after, hsplit, hbefore⟩ := List.find?_eq_some_iff_append.mp hfind
      have hrow : row.programOS = 2 := by simpa using hrow
      have hbefore : ∀ r ∈ before, r.programOS ≠ 2 := by simpa using hbefore
      rw [hsplit, List.pairwise_append] at hdistinct
      have hafter : ∀ r ∈ after, r.programOS ≠ 2 := fun r hr =>
        hrow ▸ ((List.pairwise_cons.mp hdistinct.2.1).1 r hr).symm
      have htake : (select i).takeWhile (fun row => row.programOS ≠ 2) = before := by
        rw [hsplit, List.takeWhile_append_of_pos (by simpa using hbefore),
          List.takeWhile_cons_of_neg (by simpa using hrow), List.append_nil]
      rw [wpnameBefore, htake, hsplit, foldl_linux hrow hbefore hafter,
        (foldl_windows hdistinct.1).1]
      rfl

/-- The loop runs over the bit positions from 1 on. -/
theorem mem_bitPositions {maxBit : Int} : i ∈ bitPositions maxBit ↔ 1 ≤ i ∧ i ≤ maxBit := by
  unfold bitPositions
  rw [List.mem_map]
  constructor
  · rintro ⟨k, hk, rfl⟩
    have hk := List.mem_range.mp hk
    omega
  · intro h
    exact ⟨(i - 1).toNat, List.mem_range.mpr (by omega), by omega⟩

/-- Every row is at a bit position up to `max_bit`. -/
theorem bitPos_le_maxBit {row : ProgramRow} (h : row ∈ programs) :
    row.bitPos ≤ maxBit programs := by
  have hmem : row.bitPos ∈ programs.map ProgramRow.bitPos := List.mem_map_of_mem h
  unfold maxBit
  cases hmax : (programs.map ProgramRow.bitPos).max? with
  | none =>
      rw [List.max?_eq_none_iff] at hmax
      rw [hmax] at hmem
      exact absurd hmem List.not_mem_nil
  | some m => exact (List.max?_eq_some_iff.mp hmax).2 _ hmem

/-- Both loops, on either list: `list` is one of them, and `entry` what the rows assign to it. -/
theorem lookup_setup (list : ProgramLists → Table Int Bytes) (entry : Int → Option Bytes)
    (hstart : list .start = ∅)
    (hempty : ∀ lists j, list (emptyEntry lists j) = (list lists).insertNew j [])
    (hpass : ∀ lists i, list (bitPass select lists i) = (list lists).assign i (entry i)) :
    (list (currentProgSetup programs select .start)).lookup i
      = if 1 ≤ i ∧ i ≤ maxBit programs then some ((entry i).getD []) else none := by
  have hpasses : ∀ lists, list ((bitPositions (maxBit programs)).foldl (bitPass select) lists)
      = (bitPositions (maxBit programs)).foldl (fun t i => t.assign i (entry i)) (list lists) :=
    fun _ => (List.foldl_hom list fun lists i => (hpass lists i).symm).symm
  have hentries : list ((bitPositions (maxBit programs)).foldl emptyEntry .start)
      = (bitPositions (maxBit programs)).foldl (fun t j => t.insertNew j []) (list .start) :=
    (List.foldl_hom list fun lists j => (hempty lists j).symm).symm
  unfold currentProgSetup
  dsimp only
  rw [hpasses, hentries, hstart, Table.lookup_foldl_assign]
  have hfirst := Table.lookup_foldl_insertNew (∅ : Table Int Bytes) i
    ((bitPositions (maxBit programs)).map fun j => (j, ([] : Bytes)))
  rw [List.foldl_map, AList.lookup_empty, Option.none_or, List.find?_map, Option.map_map] at hfirst
  rw [hfirst]
  by_cases hi : 1 ≤ i ∧ i ≤ maxBit programs
  · have hmem := mem_bitPositions.mpr hi
    rw [if_pos hmem, if_pos hi]
    have hfound : ((bitPositions (maxBit programs)).find?
        ((fun e : Int × Bytes => decide (e.1 = i)) ∘ fun j => (j, []))).isSome :=
      List.find?_isSome.mpr ⟨i, hmem, decide_eq_true rfl⟩
    obtain ⟨j, hj⟩ := Option.isSome_iff_exists.mp hfound
    rw [hj]
    cases entry i <;> rfl
  · have hmem : i ∉ bitPositions (maxBit programs) := fun h => hi (mem_bitPositions.mp h)
    rw [if_neg hmem, if_neg hi, List.find?_eq_none.mpr]
    · rfl
    · intro j hj
      simpa using fun h : j = i => hmem (h ▸ hj)

/-- The list of Windows behind the call. -/
theorem lookup_windowsList (hone : OneRowPerOs programs) (hsel : Selects programs select) :
    (currentProgSetup programs select .start).windowsList.lookup i
      = if 1 ≤ i ∧ i ≤ maxBit programs then some (programEntry programs 1 i) else none :=
  lookup_setup ProgramLists.windowsList _ rfl (fun _ _ => rfl)
    fun _ _ => bitPass_windows hone hsel

/-- The list of Linux behind the call. -/
theorem lookup_linuxList (hone : OneRowPerOs programs) (hsel : Selects programs select) :
    (currentProgSetup programs select .start).linuxList.lookup i
      = if 1 ≤ i ∧ i ≤ maxBit programs then
          some (((ownRow programs 2 i).map fun row =>
            row.linuxEntry (wpnameBefore (select i))).getD [])
        else none :=
  lookup_setup ProgramLists.linuxList _ rfl (fun _ _ => rfl) fun _ _ => bitPass_linux hone hsel

end

/-! ### For every order -/

/-- Whatever order the rows come in, both lists have the entries that the table asks for. -/
structure OwnRows (programs : List ProgramRow) : Prop where
  windows : ∀ select, Selects programs select → ∀ i, 1 ≤ i → i ≤ maxBit programs →
    (currentProgSetup programs select .start).windowsList.lookup i
      = some (programEntry programs 1 i)
  linux : ∀ select, Selects programs select → ∀ i, 1 ≤ i → i ≤ maxBit programs →
    (currentProgSetup programs select .start).linuxList.lookup i
      = some (programEntry programs 2 i)
  order : ∀ select select', Selects programs select → Selects programs select' →
    ∀ i, 1 ≤ i → i ≤ maxBit programs →
      (currentProgSetup programs select .start).windowsList.lookup i
          = (currentProgSetup programs select' .start).windowsList.lookup i ∧
        (currentProgSetup programs select .start).linuxList.lookup i
          = (currentProgSetup programs select' .start).linuxList.lookup i

/-- A Linux row that is not primary has no second name, and the Windows entry at its bit position is
empty. -/
def NoSecondName (programs : List ProgramRow) : Prop :=
  ∀ row ∈ programs, row.programOS = 2 → row.primaryPname ≠ 1 → 1 ≤ row.bitPos →
    row.secondaryPname = [] ∧ programEntry programs 1 row.bitPos = []

instance (programs : List ProgramRow) : Decidable (NoSecondName programs) :=
  inferInstanceAs (Decidable (∀ row ∈ programs, _))

section
variable {programs : List ProgramRow} {select : Int → List ProgramRow} {row : ProgramRow}

/-- The two branches agree on a row that is primary, and on a string that is the second name. -/
theorem linuxEntry_eq_iff {wpname : Bytes} :
    row.linuxEntry wpname = row.entry ↔ row.primaryPname = 1 ∨ wpname = row.secondaryPname := by
  unfold ProgramRow.linuxEntry ProgramRow.entry
  by_cases hprimary : row.primaryPname = 1
  · simp [hprimary]
  · simp [hprimary]

/-- The string is empty, or the entry of the Windows row. -/
theorem wpnameBefore_eq (hone : OneRowPerOs programs) (hsel : Selects programs select) (i : Int) :
    wpnameBefore (select i) = [] ∨ wpnameBefore (select i) = programEntry programs 1 i := by
  unfold wpnameBefore
  cases hfind : ((select i).takeWhile fun row => row.programOS ≠ 2).find?
      fun row => row.programOS = 1 with
  | none => exact Or.inl rfl
  | some w =>
      right
      have hmem := hsel.mem_iff.mp
        ((List.takeWhile_prefix _).subset (List.mem_of_find?_eq_some hfind))
      have hw := (ownRow_eq_some_iff hone).mpr
        ⟨hmem.1, hmem.2, by simpa using List.find?_some hfind⟩
      rw [programEntry, hw]

/-- Where the Linux row comes first, the string is still empty. -/
theorem wpnameBefore_first (hos : row.programOS = 2) (rows : List ProgramRow) :
    wpnameBefore (row :: rows) = [] := by
  unfold wpnameBefore
  rw [List.takeWhile_cons_of_neg (by simpa using hos)]
  rfl

/-- Where it comes last, the string is the entry of the Windows row. -/
theorem wpnameBefore_last (hone : OneRowPerOs programs) (hsel : Selects programs select) {i : Int}
    {rows : List ProgramRow} (hos : row.programOS = 2) (hrows : select i = rows ++ [row]) :
    wpnameBefore (select i) = programEntry programs 1 i := by
  have hdistinct := select_distinct hone hsel i
  rw [hrows, List.pairwise_append] at hdistinct
  have hothers : ∀ r ∈ rows, r.programOS ≠ 2 := fun r hr =>
    hos ▸ hdistinct.2.2 r hr row List.mem_cons_self
  unfold wpnameBefore programEntry
  rw [← find?_select hone hsel, hrows, List.takeWhile_append_of_pos (by simpa using hothers),
    List.takeWhile_cons_of_neg (by simpa using hos), List.append_nil, List.find?_append]
  simp [hos]

/-- The order of the database, but at bit position `i` these rows. -/
theorem selects_with {rows : List ProgramRow} {i : Int}
    (h : rows.Perm (programs.filter fun row => row.bitPos = i)) :
    Selects programs fun j =>
      if j = i then rows else programs.filter fun row => row.bitPos = j := by
  intro j
  dsimp only
  by_cases hj : j = i
  · rw [if_pos hj, hj]
    exact h
  · rw [if_neg hj]

/-- Without second names the list of Linux is made of its own rows. -/
theorem lookup_linuxList_own (hone : OneRowPerOs programs) (h : NoSecondName programs)
    (hsel : Selects programs select) (i : Int) :
    (currentProgSetup programs select .start).linuxList.lookup i
      = if 1 ≤ i ∧ i ≤ maxBit programs then some (programEntry programs 2 i) else none := by
  rw [lookup_linuxList hone hsel, programEntry]
  by_cases hi : 1 ≤ i ∧ i ≤ maxBit programs
  · rw [if_pos hi, if_pos hi]
    cases hown : ownRow programs 2 i with
    | none => rfl
    | some row =>
        obtain ⟨hrow, rfl, hos⟩ := (ownRow_eq_some_iff hone).mp hown
        refine congrArg some (linuxEntry_eq_iff.mpr ?_)
        by_cases hprimary : row.primaryPname = 1
        · exact Or.inl hprimary
        · obtain ⟨hsecond, hwindows⟩ := h row hrow hos hprimary hi.1
          right
          rw [hsecond]
          rcases wpnameBefore_eq hone hsel row.bitPos with hw | hw
          · exact hw
          · exact hw.trans hwindows
  · rw [if_neg hi, if_neg hi]

/-- For every table with at most one row for a bit position and an operating system: the entries are
made of their own rows, whatever the order, exactly if no Linux row has a second name. -/
theorem ownRows_iff (hone : OneRowPerOs programs) : OwnRows programs ↔ NoSecondName programs := by
  constructor
  · intro h row hrow hos hprimary hpos
    have hown := (ownRow_eq_some_iff hone).mpr ⟨hrow, rfl, hos⟩
    have hmax := bitPos_le_maxBit hrow
    -- for every order of its bit position, the string is the second name
    have horder : ∀ select, Selects programs select →
        wpnameBefore (select row.bitPos) = row.secondaryPname := by
      intro select hsel
      have hlinux := h.linux select hsel row.bitPos hpos hmax
      rw [lookup_linuxList hone hsel, if_pos ⟨hpos, hmax⟩, programEntry, hown] at hlinux
      exact (linuxEntry_eq_iff.mp (Option.some.inj hlinux)).resolve_left hprimary
    have hmem : row ∈ programs.filter fun r => r.bitPos = row.bitPos :=
      List.mem_filter.mpr ⟨hrow, by simp⟩
    have hperm := (List.perm_cons_erase hmem).symm
    have hsecond : row.secondaryPname = [] := by
      have hfirst := horder _ (selects_with hperm)
      rw [if_pos rfl, wpnameBefore_first hos] at hfirst
      exact hfirst.symm
    have hsel := selects_with ((List.perm_append_singleton row _).trans hperm)
    have hlast := wpnameBefore_last hone hsel hos (if_pos rfl)
    exact ⟨hsecond, hlast.symm.trans ((horder _ hsel).trans hsecond)⟩
  · intro h
    have hwindows : ∀ select, Selects programs select → ∀ i, 1 ≤ i → i ≤ maxBit programs →
        (currentProgSetup programs select .start).windowsList.lookup i
          = some (programEntry programs 1 i) := by
      intro select hsel i h1 h2
      rw [lookup_windowsList hone hsel, if_pos ⟨h1, h2⟩]
    have hlinux : ∀ select, Selects programs select → ∀ i, 1 ≤ i → i ≤ maxBit programs →
        (currentProgSetup programs select .start).linuxList.lookup i
          = some (programEntry programs 2 i) := by
      intro select hsel i h1 h2
      rw [lookup_linuxList_own hone h hsel, if_pos ⟨h1, h2⟩]
    refine ⟨hwindows, hlinux, fun select select' hsel hsel' i h1 h2 => ?_⟩
    constructor
    · rw [hwindows select hsel i h1 h2, hwindows select' hsel' i h1 h2]
    · rw [hlinux select hsel i h1 h2, hlinux select' hsel' i h1 h2]

end

/-- A program with a name for Windows, and one for Linux. -/
def twoPrimaryRows : List ProgramRow :=
  [⟨1, [ch 'w'], 1, 1, []⟩, ⟨1, [ch 'l'], 2, 1, []⟩]

theorem ownRows_iff_primary : OwnRows twoPrimaryRows :=
  (ownRows_iff (by decide)).mpr (by decide +kernel)

/-- The Linux row has two names: its entry is made of the Windows one and the first one. -/
theorem ownRows_fails :
    let programs : List ProgramRow := [⟨1, [ch 'w'], 1, 1, []⟩, ⟨1, [ch 'l'], 2, 0, [ch 's']⟩]
    OneRowPerOs programs ∧ ¬ OwnRows programs := by
  refine ⟨by decide, fun h => ?_⟩
  have hlinux := h.linux _ (fun i => List.Perm.refl _) 1 (by decide) (by decide)
  exact absurd hlinux (by decide +kernel)

/-! ### What is handed to the clients -/

/-- A list that has an entry under every bit position, and no other. -/
theorem setUp_of_lookup {list : Table Int Bytes} {entry : Int → Bytes} {maxBit : Int}
    (hmax : 1 ≤ maxBit) (hplain : ∀ i, ch ',' ∉ entry i ∧ 0 ∉ entry i)
    (hlookup : ∀ i, list.lookup i = if 1 ≤ i ∧ i ≤ maxBit then some (entry i) else none) :
    SetUp list ((bitPositions maxBit).map entry) where
  nonempty h := by
    have hmem : (1 : Int) ∈ bitPositions maxBit := mem_bitPositions.mpr ⟨Int.le_refl _, hmax⟩
    rw [List.map_eq_nil_iff.mp h] at hmem
    exact List.not_mem_nil hmem
  plain name hname := by
    obtain ⟨i, -, rfl⟩ := List.mem_map.mp hname
    exact hplain i
  lookup k := by
    rw [hlookup k]
    unfold bitPositions
    by_cases hk : 1 ≤ k
    · rw [if_pos hk, List.map_map, List.getElem?_map]
      by_cases hle : k ≤ maxBit
      · rw [if_pos ⟨hk, hle⟩, List.getElem?_range (by omega)]
        have hnext : ((k - 1).toNat : Int) + 1 = k := by omega
        exact congrArg (fun i => some (entry i)) hnext.symm
      · rw [if_neg fun h => hle h.2, List.getElem?_eq_none (by rw [List.length_range]; omega)]
        rfl
    · rw [if_neg hk, if_neg fun h => hk h.1]

section
variable {programs : List ProgramRow} {select : Int → List ProgramRow}

/-- The list of Windows is one that `handle_listen` can hand out. -/
theorem setUp_windowsList (hone : OneRowPerOs programs) (hsel : Selects programs select)
    (hmax : 1 ≤ maxBit programs)
    (hplain : ∀ i, ch ',' ∉ programEntry programs 1 i ∧ 0 ∉ programEntry programs 1 i) :
    SetUp (currentProgSetup programs select .start).windowsList
      ((bitPositions (maxBit programs)).map (programEntry programs 1)) :=
  setUp_of_lookup hmax hplain fun _ => lookup_windowsList hone hsel

/-- So is the list of Linux, where no row has a second name. -/
theorem setUp_linuxList (hone : OneRowPerOs programs) (h : NoSecondName programs)
    (hsel : Selects programs select) (hmax : 1 ≤ maxBit programs)
    (hplain : ∀ i, ch ',' ∉ programEntry programs 2 i ∧ 0 ∉ programEntry programs 2 i) :
    SetUp (currentProgSetup programs select .start).linuxList
      ((bitPositions (maxBit programs)).map (programEntry programs 2)) :=
  setUp_of_lookup hmax hplain (lookup_linuxList_own hone h hsel)

end

end Monitoring.Server
