import Monitoring.Client.Gather
import Monitoring.Client.ProgramList

/-!
# `Monitoring.Proofs.Coverage`: the programs that a cycle looks at

`gather_data` divides PROGRAM_COUNT by EVENTSIZE and rounds up, and calls `tally_program_count` once
for each block. EVENTSIZE is a setting, but the tally always looks at 32 entries a block
(`mem_tallyPlaces`). So the blocks make up the list exactly if 32 in the place of EVENTSIZE gives
the same number of them (`coversList_iff`).

The bounds of the loop are of type `int`. The last block of a list of more than `2 ^ 31 - 32`
programs ends at `2 ^ 31`, which is none (`tallyPlaces_lt`).
-/

set_option autoImplicit false

namespace Monitoring.Client

open Monitoring.Lib

/-! ### The places of a block -/

section
variable {size : Nat}

/-- The word is made of the entries at these places. -/
theorem tallyFrom_eq_places {programList : List Bytes} {ptree : Bytes} (n index : Nat)
    (currentProgs : BitVec 32) :
    tallyFrom programList ptree n index currentProgs =
      (tallyPlacesFrom programList.length (index + n : Nat) n index).foldl
        (fun w i =>
          if programList.getD i [] ≠ [] ∧ programList.getD i [] <:+: ptree then w ||| shiftOne i
          else w)
        currentProgs := by
  induction n generalizing index currentProgs with
  | zero => rfl
  | succ n ih =>
      have hlt : (index : Int) < ((index + (n + 1) : Nat) : Int) := by omega
      unfold tallyFrom tallyPlacesFrom
      rw [if_pos hlt]
      cases hentry : programList[index]? with
      | none =>
          have hend := List.getElem?_eq_none_iff.mp hentry
          rw [if_neg (by omega)]
          rfl
      | some entry =>
          obtain ⟨hin, -⟩ := List.getElem?_eq_some_iff.mp hentry
          have hgetD : programList.getD index [] = entry := by
            rw [List.getD_eq_getElem?_getD, hentry]
            rfl
          have hnext := ih (index + 1)
            (if entry ≠ [] ∧ entry <:+: ptree then currentProgs ||| shiftOne index
              else currentProgs)
          rw [Nat.add_assoc, Nat.add_comm 1 n] at hnext
          have hplace : 0 ≤ (index : Int) ∧ (index : Int) < programList.length := by omega
          dsimp only
          rw [if_pos hplace, List.foldl_cons, Int.toNat_natCast, hgetD, hnext]
          rfl

/-- Induction on the passes that are left. -/
theorem mem_tallyPlacesFrom {stop : Int} {n i : Nat} {index : Int} (hindex : 0 ≤ index)
    (hstop : stop ≤ index + n) :
    i ∈ tallyPlacesFrom size stop n index ↔ index ≤ i ∧ (i : Int) < stop ∧ i < size := by
  induction n generalizing index with
  | zero =>
      unfold tallyPlacesFrom
      exact iff_of_false List.not_mem_nil (by omega)
  | succ n ih =>
      unfold tallyPlacesFrom
      by_cases hlt : index < stop
      · rw [if_pos hlt]
        by_cases hin : 0 ≤ index ∧ index < size
        · rw [if_pos hin, List.mem_cons, ih (by omega) (by omega)]
          omega
        · rw [if_neg hin]
          exact iff_of_false List.not_mem_nil (by omega)
      · rw [if_neg hlt]
        exact iff_of_false List.not_mem_nil (by omega)

/-- A block looks at its 32 entries, as far as the list goes. -/
theorem mem_tallyPlaces {block i : Nat} (hblock : 1 ≤ block) (hfits : 32 * block < 2 ^ 31) :
    i ∈ tallyPlaces size block ↔ 32 * (block - 1) ≤ i ∧ i < 32 * block ∧ i < size := by
  have hstop : i32 ((block : Int) * 32) = 32 * block := by
    rw [i32_of_lt (by omega) (by omega)]
    omega
  have hstart : i32 (((block : Int) - 1) * 32) = 32 * (block - 1) := by
    rw [i32_of_lt (by omega) (by omega)]
    omega
  unfold tallyPlaces
  rw [hstop, hstart, mem_tallyPlacesFrom (by omega) (by omega)]
  omega

/-- No block reaches the last 32 places that an `int` can name. -/
theorem tallyPlaces_lt {block : Int} {i : Nat} (h : i ∈ tallyPlaces size block) :
    i < 2 ^ 31 - 32 := by
  have hstop : i32 (block * 32) ≤ 2 ^ 31 - 32 := by
    unfold i32
    omega
  have hplace : ∀ n index, i ∈ tallyPlacesFrom size (i32 (block * 32)) n index →
      (i : Int) < i32 (block * 32) := by
    intro n
    induction n with
    | zero => exact fun index h => absurd h List.not_mem_nil
    | succ n ih =>
        intro index h
        unfold tallyPlacesFrom at h
        split at h
        · case isTrue hlt =>
          split at h
          · case isTrue hin =>
            rcases List.mem_cons.mp h with rfl | h
            · omega
            · exact ih _ h
          · exact absurd h List.not_mem_nil
        · exact absurd h List.not_mem_nil
  have hlt := hplace _ _ h
  omega

end

/-! ### The blocks of a cycle -/

/-- The number of blocks is PROGRAM_COUNT by EVENTSIZE, rounded up. -/
theorem blockCount_bounds {pcount eventSize : Int} (hp : 0 ≤ pcount) (he : 1 ≤ eventSize) :
    eventSize * (blockCount pcount eventSize - 1) < pcount ∧
      pcount ≤ eventSize * blockCount pcount eventSize := by
  have hdiv := Int.mul_ediv_add_emod pcount eventSize
  have hmod := Int.emod_nonneg pcount (by omega : eventSize ≠ 0)
  have hlt := Int.emod_lt_of_pos pcount (by omega : 0 < eventSize)
  unfold blockCount
  rw [Int.tmod_eq_emod_of_nonneg hp, Int.tdiv_eq_ediv_of_nonneg hp]
  by_cases hrest : pcount % eventSize ≠ 0
  · rw [if_pos hrest, Int.add_sub_cancel, Int.mul_add, Int.mul_one]
    omega
  · rw [if_neg hrest, Int.mul_sub, Int.mul_one]
    omega

theorem blockCount_nonneg {pcount eventSize : Int} (hp : 0 ≤ pcount) (he : 1 ≤ eventSize) :
    0 ≤ blockCount pcount eventSize := by
  obtain ⟨-, hhi⟩ := blockCount_bounds hp he
  by_contra hneg
  have hmul : eventSize * blockCount pcount eventSize < 0 :=
    Int.mul_neg_of_pos_of_neg (by omega) (by omega)
  omega

/-- The places at which the calls of a cycle look, for the blocks from 1 on. -/
def examinedPlaces (size : Nat) (block : Int) : List Nat :=
  (List.range block.toNat).flatMap fun j => tallyPlaces size ((j + 1 : Nat) : Int)

/-- The blocks make up the list: together they look at every entry, and each of them begins at
one. -/
structure CoversList (size : Nat) (block : Int) : Prop where
  examined : ∀ i, i ∈ examinedPlaces size block ↔ i < size
  begins : ∀ j : Nat, j < block → 32 * j < size

/-- The blocks of a cycle make up PROGRAM_LIST exactly if there are as many of them as for an
EVENTSIZE of 32, and the last one ends below `2 ^ 31`. -/
theorem coversList_iff {eventSize : Int} (he : 1 ≤ eventSize) (size : Nat) :
    CoversList size (blockCount size eventSize) ↔
      blockCount size eventSize = blockCount size 32 ∧ size ≤ 2 ^ 31 - 32 := by
  obtain ⟨hlo32, hhi32⟩ := blockCount_bounds (Int.natCast_nonneg size) (by decide : (1 : Int) ≤ 32)
  have hnonneg := blockCount_nonneg (Int.natCast_nonneg size) he
  generalize blockCount size eventSize = block at *
  generalize blockCount size 32 = block32 at *
  have hmem : ∀ i, i ∈ examinedPlaces size block ↔
      ∃ j : Nat, j < block ∧ i ∈ tallyPlaces size ((j + 1 : Nat) : Int) := by
    intro i
    unfold examinedPlaces
    rw [List.mem_flatMap]
    refine exists_congr fun j => and_congr_left fun _ => ?_
    rw [List.mem_range]
    omega
  constructor
  · rintro ⟨hexamined, hbegins⟩
    have hlast : 32 * (block - 1) < size := by
      by_cases hpos : 1 ≤ block
      · have hbegin := hbegins (block - 1).toNat (by omega)
        omega
      · omega
    by_cases hzero : size = 0
    · omega
    · -- the block that looks at the last entry
      obtain ⟨j, hj, hplace⟩ := (hmem (size - 1)).mp ((hexamined (size - 1)).mpr (by omega))
      have hlt := tallyPlaces_lt hplace
      have hbegin := hbegins j hj
      obtain ⟨-, hend, -⟩ := (mem_tallyPlaces (by omega) (by omega)).mp hplace
      omega
  · rintro ⟨rfl, hsize⟩
    refine ⟨fun i => (hmem i).trans ?_, fun j hj => by omega⟩
    constructor
    · rintro ⟨j, hj, hplace⟩
      exact ((mem_tallyPlaces (by omega) (by omega)).mp hplace).2.2
    · intro hi
      refine ⟨i / 32, by omega, (mem_tallyPlaces (by omega) (by omega)).mpr ?_⟩
      omega

/-- Blocks of two programs each, for a list of two. -/
theorem coversList_iff_two : CoversList 2 (blockCount 2 2) :=
  (coversList_iff (by decide : (1 : Int) ≤ 2) 2).mpr (by decide)

/-- "64 would be 64 programs, etc": with this EVENTSIZE, a list of 33 programs has one block, and
nobody looks at the last program. -/
theorem coversList_fails : ¬ CoversList 33 (blockCount 33 64) := by
  intro h
  exact absurd ((h.examined 32).mpr (by decide)) (by decide)

end Monitoring.Client
