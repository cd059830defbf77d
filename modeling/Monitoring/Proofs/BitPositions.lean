import Monitoring.Client.WindowsList
import Monitoring.Proofs.ProgramList

/-!
# `Monitoring.Proofs.BitPositions`: which bit a program has

Bit `p` of block `block` is meant for entry `32 * (block - 1) + p` of PROGRAM_LIST, and a blank
entry only holds its position. Neither tally keeps to this.

The Linux tally shifts by the place in the whole list, so in every block but the first it shifts an
`int` by 32 or more as soon as it finds a program (`bitsOfEntries_iff`). The Windows tally counts
only the entries that are not blank, so a program moves down by the number of blank entries in
front of it: to its rank (`Monitoring.Lib.Rank`). It also compares the first process of a snapshot
in another way than the others. `winBitsOfEntries_iff` says when the result is right all the same.
-/

set_option autoImplicit false

namespace Monitoring.Client

open Monitoring.Lib

/-- There is an entry at the place, it is not blank, and `P` holds of it. -/
def EntryAt (programList : List Bytes) (index : Nat) (P : Bytes → Prop) : Prop :=
  ∃ entry, programList[index]? = some entry ∧ entry ≠ [] ∧ P entry

instance (programList : List Bytes) (index : Nat) (P : Bytes → Prop) [DecidablePred P] :
    Decidable (EntryAt programList index P) :=
  match h : programList[index]? with
  | none => isFalse (by rintro ⟨entry, hentry, -⟩; rw [h] at hentry; cases hentry)
  | some entry => decidable_of_iff (entry ≠ [] ∧ P entry) (by simp [EntryAt, h])

section
variable {programList : List Bytes} {index : Nat} {P Q : Bytes → Prop}

theorem EntryAt.imp (hPQ : ∀ entry, P entry → Q entry) (h : EntryAt programList index P) :
    EntryAt programList index Q := by
  obtain ⟨entry, hentry, hne, hP⟩ := h
  exact ⟨entry, hentry, hne, hPQ entry hP⟩

theorem entryAt_some {entry : Bytes} (hentry : programList[index]? = some entry) :
    EntryAt programList index P ↔ entry ≠ [] ∧ P entry := by
  simp [EntryAt, hentry]

/-- There is no entry from the end of the list on. -/
theorem EntryAt.lt_length (h : EntryAt programList index P) : index < programList.length := by
  obtain ⟨entry, hentry, -⟩ := h
  exact (List.getElem?_eq_some_iff.mp hentry).1

end

/-! ### The Linux tally -/

section
variable {programList : List Bytes} {ptree : Bytes}

/-- The entry exists, is not blank, and occurs in the text. -/
def Occurs (programList : List Bytes) (ptree : Bytes) (index : Nat) : Prop :=
  EntryAt programList index fun entry => entry <:+: ptree

instance (programList : List Bytes) (ptree : Bytes) (index : Nat) :
    Decidable (Occurs programList ptree index) :=
  inferInstanceAs (Decidable (EntryAt programList index fun entry => entry <:+: ptree))

/-- The word is made of these shifts. -/
theorem tallyFrom_eq_foldl (n index : Nat) (currentProgs : BitVec 32) :
    tallyFrom programList ptree n index currentProgs =
      (tallyShifts programList ptree n index).foldl (fun w c => w ||| shiftOne c) currentProgs := by
  induction n generalizing index currentProgs with
  | zero => rfl
  | succ n ih =>
      unfold tallyFrom tallyShifts
      cases programList[index]? with
      | none => rfl
      | some entry =>
          dsimp only
          rw [ih]
          by_cases hfound : entry ≠ [] ∧ entry <:+: ptree
          · rw [if_pos hfound, if_pos hfound, List.foldl_cons]
          · rw [if_neg hfound, if_neg hfound]

/-- The loop shifts by the places of the programs it finds. -/
theorem mem_tallyShifts (n index c : Nat) :
    c ∈ tallyShifts programList ptree n index ↔
      index ≤ c ∧ c < index + n ∧ Occurs programList ptree c := by
  induction n generalizing index with
  | zero =>
      unfold tallyShifts
      exact iff_of_false List.not_mem_nil (by omega)
  | succ n ih =>
      unfold tallyShifts
      cases hentry : programList[index]? with
      | none =>
          have hend : programList.length ≤ index := List.getElem?_eq_none_iff.mp hentry
          refine iff_of_false List.not_mem_nil ?_
          rintro ⟨hle, -, hoccurs⟩
          have hlt := hoccurs.lt_length
          omega
      | some entry =>
          have hindex : Occurs programList ptree index ↔ entry ≠ [] ∧ entry <:+: ptree :=
            entryAt_some hentry
          dsimp only
          -- the place of this pass, or one of the passes that are left
          by_cases hfound : entry ≠ [] ∧ entry <:+: ptree
          · rw [if_pos hfound, List.mem_cons, ih]
            constructor
            · rintro (rfl | ⟨hle, hlt, hoccurs⟩)
              · exact ⟨Nat.le_refl _, by omega, hindex.mpr hfound⟩
              · exact ⟨by omega, by omega, hoccurs⟩
            · rintro ⟨hle, hlt, hoccurs⟩
              rcases Nat.eq_or_lt_of_le hle with h | h
              · exact Or.inl h.symm
              · exact Or.inr ⟨h, by omega, hoccurs⟩
          · rw [if_neg hfound, ih]
            constructor
            · rintro ⟨hle, hlt, hoccurs⟩
              exact ⟨by omega, by omega, hoccurs⟩
            · rintro ⟨hle, hlt, hoccurs⟩
              rcases Nat.eq_or_lt_of_le hle with rfl | h
              · exact absurd (hindex.mp hoccurs) hfound
              · exact ⟨h, by omega, hoccurs⟩

end

/-- All shifts are defined, and every bit is that of its entry. -/
structure BitsOfEntries (programList : List Bytes) (ptree : Bytes) (block : Nat) : Prop where
  shifts : ∀ c ∈ tallyShifts programList ptree 32 ((block - 1) * 32), c < 32
  bits : ∀ p < 32, (tallyProgramCount programList ptree block).getLsbD p = true ↔
    Occurs programList ptree (32 * (block - 1) + p)

/-- The Linux tally of a block is defined, and right, exactly if it is the first block or nothing
is found. -/
theorem bitsOfEntries_iff (programList : List Bytes) (ptree : Bytes) {block : Nat}
    (hblock : 1 ≤ block) :
    BitsOfEntries programList ptree block ↔
      block = 1 ∨ ∀ p < 32, ¬ Occurs programList ptree (32 * (block - 1) + p) := by
  constructor
  · rintro ⟨hshifts, -⟩
    by_cases hone : block = 1
    · exact Or.inl hone
    · refine Or.inr fun p hp hoccurs => ?_
      have hmem := (mem_tallyShifts 32 ((block - 1) * 32) (32 * (block - 1) + p)).mpr
        ⟨by omega, by omega, hoccurs⟩
      have hlt := hshifts _ hmem
      omega
  · intro h
    constructor
    · intro c hc
      obtain ⟨hle, hlt, hoccurs⟩ := (mem_tallyShifts 32 ((block - 1) * 32) c).mp hc
      rcases h with rfl | hnone
      · omega
      · obtain ⟨p, rfl⟩ : ∃ p, c = 32 * (block - 1) + p := ⟨c - 32 * (block - 1), by omega⟩
        exact absurd hoccurs (hnone p (by omega))
    · intro p hp
      rw [getLsbD_tallyProgramCount hp]
      have hindex : (block - 1) * 32 + p = 32 * (block - 1) + p := by omega
      rw [hindex]
      constructor
      · rintro ⟨entry, hentry, ⟨hne, hinfix⟩, -⟩
        exact ⟨entry, hentry, hne, hinfix⟩
      · rintro ⟨entry, hentry, hne, hinfix⟩
        exact ⟨entry, hentry, ⟨hne, hinfix⟩, by omega⟩

/-- A list of one program, and 32 blank entries before it. -/
def farProgram : List Bytes := List.replicate 32 [] ++ [[ch 'a']]

/-- Nothing is found in the second block of the list. -/
theorem bitsOfEntries_iff_empty : BitsOfEntries farProgram [ch 'b'] 2 :=
  (bitsOfEntries_iff farProgram [ch 'b'] (by decide)).mpr (Or.inr (by decide))

/-- The program is found, and the tally shifts by 32. -/
theorem bitsOfEntries_fails : ¬ BitsOfEntries farProgram [ch 'a'] 2 := by
  intro h
  exact absurd (h.shifts 32 (by decide)) (by decide)

/-! ### The Windows tally -/

/-- The name with `.exe` is that of a process, in any case. -/
def IsRunning (snapshot : List Bytes) (entry : Bytes) : Prop :=
  ∃ s ∈ snapshot, iequals s (exeName entry) = true

/-- The name with `.exe` is that of the first process, letter by letter, or that of a later one, in
any case. -/
def Compares (snapshot : List Bytes) (entry : Bytes) : Prop :=
  snapshot.head? = some (exeName entry) ∨ IsRunning snapshot.tail entry

instance (snapshot : List Bytes) : DecidablePred (IsRunning snapshot) := fun entry =>
  inferInstanceAs (Decidable (∃ s ∈ snapshot, iequals s (exeName entry) = true))

instance (snapshot : List Bytes) : DecidablePred (Compares snapshot) := fun entry =>
  inferInstanceAs (Decidable (snapshot.head? = some (exeName entry) ∨ _))

/-- The entry exists, is not blank, and is the name of a running process. -/
def Runs (programList snapshot : List Bytes) (index : Nat) : Prop :=
  EntryAt programList index (IsRunning snapshot)

instance (programList snapshot : List Bytes) (index : Nat) :
    Decidable (Runs programList snapshot index) :=
  inferInstanceAs (Decidable (EntryAt programList index (IsRunning snapshot)))

theorem winFindRunningProcess_iff (snapshot : List Bytes) (entry : Bytes) :
    winFindRunningProcess snapshot entry = true ↔ Compares snapshot entry := by
  unfold winFindRunningProcess Compares IsRunning
  cases snapshot with
  | nil => simp
  | cons first rest =>
      dsimp only
      by_cases hfirst : first = exeName entry
      · simp [hfirst]
      · simp [hfirst, List.any_eq_true]

/-- A process that is found is there. -/
theorem Compares.isRunning {snapshot : List Bytes} {entry : Bytes} (h : Compares snapshot entry) :
    IsRunning snapshot entry := by
  cases snapshot with
  | nil =>
      rcases h with h | ⟨s, hs, -⟩
      · cases h
      · cases hs
  | cons first rest =>
      rcases h with h | ⟨s, hs, hequals⟩
      · exact ⟨first, List.mem_cons_self, by simp [iequals, Option.some.inj h]⟩
      · exact ⟨s, List.mem_cons_of_mem _ hs, hequals⟩

section
variable {programList snapshot : List Bytes} {block : Nat}

/-- The places of a block whose entry has the property. -/
def placesOf (programList : List Bytes) (block : Nat) (P : Bytes → Prop) [DecidablePred P] :
    Finset Nat :=
  (Finset.range 32).filter fun k => EntryAt programList (32 * (block - 1) + k) P

theorem mem_placesOf {P : Bytes → Prop} [DecidablePred P] {k : Nat} :
    k ∈ placesOf programList block P ↔ k < 32 ∧ EntryAt programList (32 * (block - 1) + k) P := by
  show k ∈ (Finset.range 32).filter _ ↔ _
  rw [Finset.mem_filter, Finset.mem_range]

theorem placesOf_subset {P Q : Bytes → Prop} [DecidablePred P] [DecidablePred Q]
    (hPQ : ∀ entry, P entry → Q entry) :
    placesOf programList block P ⊆ placesOf programList block Q := by
  intro k hk
  obtain ⟨hlt, hentry⟩ := mem_placesOf.mp hk
  exact mem_placesOf.mpr ⟨hlt, hentry.imp hPQ⟩

/-- The places that the tally counts. -/
abbrev counted (programList : List Bytes) (block : Nat) : Finset Nat :=
  placesOf programList block fun _ => True

/-- The places whose program the tally finds. -/
abbrev winFound (programList snapshot : List Bytes) (block : Nat) : Finset Nat :=
  placesOf programList block (Compares snapshot)

/-- The places whose program runs. -/
abbrev running (programList snapshot : List Bytes) (block : Nat) : Finset Nat :=
  placesOf programList block (IsRunning snapshot)

theorem mem_running {k : Nat} :
    k ∈ running programList snapshot block ↔
      k < 32 ∧ Runs programList snapshot (32 * (block - 1) + k) :=
  mem_placesOf

theorem winFound_subset_counted :
    winFound programList snapshot block ⊆ counted programList block :=
  placesOf_subset fun _ _ => trivial

theorem winFound_subset_running :
    winFound programList snapshot block ⊆ running programList snapshot block :=
  placesOf_subset fun _ h => h.isRunning

/-- The loop counts on by `rank_succ`, and sets the bit with the number of every program that it
finds. Induction on the passes that are left. -/
theorem getLsbD_winTallyFrom (hblock : 1 ≤ block) {p : Nat} (n k : Nat)
    (hn : k + n ≤ 32) (currentProgs : BitVec 32) :
    (winTallyFrom programList snapshot block n (32 * (block - 1) + k) (32 * (block - 1) + 1 + k)
        (rank (counted programList block) k) currentProgs).getLsbD p = true ↔
      currentProgs.getLsbD p = true ∨
      ∃ i, k ≤ i ∧ i < k + n ∧ i ∈ winFound programList snapshot block ∧
        rank (counted programList block) i = p := by
  induction n generalizing k currentProgs with
  | zero =>
      unfold winTallyFrom
      constructor
      · exact Or.inl
      · rintro (h | ⟨i, hle, hlt, -⟩)
        · exact h
        · omega
  | succ n ih =>
      unfold winTallyFrom
      cases hentry : programList[32 * (block - 1) + k]? with
      | none =>
          have hend : programList.length ≤ 32 * (block - 1) + k :=
            List.getElem?_eq_none_iff.mp hentry
          constructor
          · exact Or.inl
          · rintro (h | ⟨i, hle, -, hi, -⟩)
            · exact h
            · have hlt := (mem_placesOf.mp hi).2.lt_length
              omega
      | some entry =>
          have hcounted : k ∈ counted programList block ↔ entry ≠ [] := by
            rw [mem_placesOf, entryAt_some hentry]
            exact ⟨fun h => h.2.1, fun h => ⟨by omega, h, trivial⟩⟩
          have hfound : k ∈ winFound programList snapshot block ↔
              entry ≠ [] ∧ winFindRunningProcess snapshot entry = true := by
            rw [mem_placesOf, entryAt_some hentry, winFindRunningProcess_iff]
            exact ⟨fun h => h.2, fun h => ⟨by omega, h⟩⟩
          have hsucc := rank_succ (counted programList block) k
          have hrank : rank (counted programList block) k < 32 := by
            have hle := rank_le (counted programList block) k
            omega
          dsimp only
          rw [exists_place_succ, ← or_assoc]
          by_cases hne : entry ≠ []
          · -- the line count never leaves the block
            rw [if_pos ⟨by omega, by omega, hne⟩]
            rw [if_pos (hcounted.mpr hne)] at hsucc
            rw [Nat.add_assoc _ k 1, Nat.add_assoc _ k 1, ← hsucc, ih (k + 1) (by omega), hfound]
            refine or_congr ?_ Iff.rfl
            by_cases hfind : winFindRunningProcess snapshot entry = true
            · rw [if_pos hfind, BitVec.getLsbD_or, BitVec.getLsbD_twoPow]
              simp [hne, hfind, hrank]
            · rw [if_neg hfind]
              simp [hfind]
          · rw [if_neg fun h => hne h.2.2]
            rw [if_neg fun h => hne (hcounted.mp h)] at hsucc
            rw [Nat.add_assoc _ k 1, Nat.add_assoc _ k 1, ← hsucc, ih (k + 1) (by omega), hfound]
            simp [hne]

/-- The bits of the tally are the numbers of the programs it finds. -/
theorem getLsbD_winTallyProgramCount (hblock : 1 ≤ block) {p : Nat} :
    (winTallyProgramCount programList snapshot block).getLsbD p = true ↔
      p ∈ (winFound programList snapshot block).image (rank (counted programList block)) := by
  -- the loop starts at the first place, with nothing counted
  have h := @getLsbD_winTallyFrom programList snapshot block hblock p 32 0 (by decide) 0
  rw [rank_zero, Nat.add_zero, Nat.add_zero] at h
  unfold winTallyProgramCount
  rw [Nat.mul_comm (block - 1) 32, h, Finset.mem_image]
  constructor
  · rintro (h | ⟨i, -, -, hi, hrank⟩)
    · simp at h
    · exact ⟨i, hi, hrank⟩
  · rintro ⟨i, hi, hrank⟩
    exact Or.inr ⟨i, Nat.zero_le i, (mem_placesOf.mp hi).1.trans_le (by omega), hi, hrank⟩

end

/-- Every bit is that of its entry. -/
def WinBitsOfEntries (programList snapshot : List Bytes) (block : Nat) : Prop :=
  ∀ p < 32, (winTallyProgramCount programList snapshot block).getLsbD p = true ↔
    Runs programList snapshot (32 * (block - 1) + p)

/-- The Windows tally of a block is right exactly if every program of the block that runs is found,
and there is no blank entry in front of it. -/
theorem winBitsOfEntries_iff (programList snapshot : List Bytes) {block : Nat}
    (hblock : 1 ≤ block) :
    WinBitsOfEntries programList snapshot block ↔
      ∀ p < 32, Runs programList snapshot (32 * (block - 1) + p) →
        EntryAt programList (32 * (block - 1) + p) (Compares snapshot) ∧
        ∀ q < p, EntryAt programList (32 * (block - 1) + q) fun _ => True := by
  have himage : WinBitsOfEntries programList snapshot block ↔
      (winFound programList snapshot block).image (rank (counted programList block)) =
        running programList snapshot block := by
    constructor
    · intro h
      ext p
      by_cases hp : p < 32
      · rw [← getLsbD_winTallyProgramCount hblock, h p hp, mem_running, and_iff_right hp]
      · -- neither set has a place outside of the block
        refine iff_of_false (fun hmem => hp ?_) fun hmem => hp (mem_running.mp hmem).1
        obtain ⟨i, hi, rfl⟩ := Finset.mem_image.mp hmem
        exact (rank_le _ i).trans_lt (mem_placesOf.mp hi).1
    · intro h p hp
      rw [getLsbD_winTallyProgramCount hblock, h, mem_running, and_iff_right hp]
  rw [himage, image_rank_eq_iff winFound_subset_counted winFound_subset_running]
  constructor
  · rintro ⟨hall, hgap⟩ p hp hruns
    have hfound : p ∈ winFound programList snapshot block :=
      hall ▸ mem_running.mpr ⟨hp, hruns⟩
    exact ⟨(mem_placesOf.mp hfound).2, fun q hq => (mem_placesOf.mp (hgap p hfound q hq)).2⟩
  · intro h
    constructor
    · refine winFound_subset_running.antisymm fun p hmem => ?_
      obtain ⟨hp, hruns⟩ := mem_running.mp hmem
      exact mem_placesOf.mpr ⟨hp, (h p hp hruns).1⟩
    · intro p hfound q hq
      obtain ⟨hp, hruns⟩ := mem_running.mp (winFound_subset_running hfound)
      exact mem_placesOf.mpr ⟨hq.trans hp, (h p hp hruns).2 q hq⟩

/-- The second program of a list runs, with another case. -/
theorem winBitsOfEntries_iff_second :
    WinBitsOfEntries [[ch 'a'], [ch 'b']] [[ch 'x'], exeName [ch 'B']] 1 :=
  (winBitsOfEntries_iff _ _ (by decide)).mpr (by decide)

/-- A blank entry in front of the program: the tally sets bit 0 for it. -/
theorem winBitsOfEntries_fails :
    ¬ WinBitsOfEntries [[], [ch 'b']] [[ch 'x'], exeName [ch 'b']] 1 := by
  intro h
  have hbit := (h 0 (by decide)).mp (by decide)
  exact absurd hbit (by decide)

end Monitoring.Client
