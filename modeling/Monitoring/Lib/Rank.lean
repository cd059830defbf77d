import Mathlib.Algebra.Order.BigOperators.Group.Finset
import Mathlib.Data.Finset.Image

/-!
# `Monitoring.Lib.Rank`: places counted without the gaps

`rank s i` is how many elements of `s` are below `i`: the number of `i` if only the elements of `s`
are counted. A loop that counts them goes by `rank_succ`. The rank is at most the place itself
(`rank_le`), and equal to it exactly if there is no gap below (`rank_eq_iff`).

`image_rank_eq_iff` is about a set whose elements are moved to their ranks: it becomes a set `u`
that contains it exactly if it is `u` already and nothing moves.

A loop over places meets the first one and then the rest (`exists_place_succ`).
-/

set_option autoImplicit false

namespace Monitoring.Lib

/-- The number of elements below `i`. -/
def rank (s : Finset Nat) (i : Nat) : Nat := (s.filter (· < i)).card

variable {s t u : Finset Nat} {i j : Nat}

/-- Of `n + 1` places from `k` on, one is `k`, or it is one of the `n` places from `k + 1` on. -/
theorem exists_place_succ {P : Nat → Prop} {k n : Nat} :
    (∃ i, k ≤ i ∧ i < k + (n + 1) ∧ P i) ↔ P k ∨ ∃ i, k + 1 ≤ i ∧ i < k + 1 + n ∧ P i := by
  constructor
  · rintro ⟨i, hle, hlt, hi⟩
    rcases Nat.eq_or_lt_of_le hle with rfl | h
    · exact Or.inl hi
    · exact Or.inr ⟨i, h, by omega, hi⟩
  · rintro (hk | ⟨i, hle, hlt, hi⟩)
    · exact ⟨k, Nat.le_refl k, by omega, hk⟩
    · exact ⟨i, by omega, by omega, hi⟩

@[simp] theorem rank_zero : rank s 0 = 0 := by
  show (s.filter (· < 0)).card = 0
  rw [Finset.filter_false_of_mem fun i _ => Nat.not_lt_zero i, Finset.card_empty]

/-- One place further. -/
theorem rank_succ (s : Finset Nat) (i : Nat) :
    rank s (i + 1) = if i ∈ s then rank s i + 1 else rank s i := by
  unfold rank
  by_cases hi : i ∈ s
  · have hinsert : s.filter (· < i + 1) = insert i (s.filter (· < i)) := by
      ext j
      simp only [Finset.mem_filter, Finset.mem_insert]
      constructor
      · rintro ⟨hj, hlt⟩
        rcases Nat.lt_succ_iff_lt_or_eq.mp hlt with h | h
        · exact Or.inr ⟨hj, h⟩
        · exact Or.inl h
      · rintro (rfl | ⟨hj, hlt⟩)
        · exact ⟨hi, Nat.lt_succ_self _⟩
        · exact ⟨hj, Nat.lt_succ_of_lt hlt⟩
    rw [if_pos hi, hinsert, Finset.card_insert_of_notMem (by simp)]
  · rw [if_neg hi]
    refine congrArg Finset.card (Finset.filter_congr fun j hj => ?_)
    have hne : j ≠ i := fun h => hi (h ▸ hj)
    omega

theorem rank_le (s : Finset Nat) (i : Nat) : rank s i ≤ i := by
  induction i with
  | zero => exact Nat.le_of_eq rank_zero
  | succ i ih =>
      rw [rank_succ]
      split <;> omega

/-- A place keeps its number exactly if there is no gap below it. -/
theorem rank_eq_iff : rank s i = i ↔ ∀ j < i, j ∈ s := by
  induction i with
  | zero => exact iff_of_true rank_zero fun j hj => absurd hj (Nat.not_lt_zero j)
  | succ i ih =>
      have hle := rank_le s i
      rw [rank_succ]
      constructor
      · intro h j hj
        by_cases hi : i ∈ s
        · rw [if_pos hi] at h
          rcases Nat.lt_succ_iff_lt_or_eq.mp hj with hlt | rfl
          · exact ih.mp (Nat.succ.inj h) j hlt
          · exact hi
        · rw [if_neg hi] at h
          omega
      · intro h
        rw [if_pos (h i (Nat.lt_succ_self i)), ih.mpr fun j hj => h j (Nat.lt_succ_of_lt hj)]

/-- Elements keep their order. -/
theorem rank_lt_rank (hi : i ∈ s) (hij : i < j) : rank s i < rank s j := by
  refine Finset.card_lt_card ?_
  rw [Finset.ssubset_iff_of_subset]
  · exact ⟨i, Finset.mem_filter.mpr ⟨hi, hij⟩, by simp⟩
  · intro k hk
    obtain ⟨hk, hki⟩ := Finset.mem_filter.mp hk
    exact Finset.mem_filter.mpr ⟨hk, hki.trans hij⟩

theorem rank_injOn (s : Finset Nat) : Set.InjOn (rank s) s := by
  intro i hi j hj h
  rcases lt_trichotomy i j with hij | hij | hij
  · exact absurd h (rank_lt_rank hi hij).ne
  · exact hij
  · exact absurd h.symm (rank_lt_rank hj hij).ne

/-- The elements of `t` are moved to their ranks in `s`. What comes out is `u`, which contains
`t`, exactly if `t` is all of `u` and no element of it has a gap below. -/
theorem image_rank_eq_iff (hts : t ⊆ s) (htu : t ⊆ u) :
    t.image (rank s) = u ↔ t = u ∧ ∀ i ∈ t, ∀ j < i, j ∈ s := by
  have hinj : Set.InjOn (rank s) t := (rank_injOn s).mono hts
  constructor
  · intro himage
    -- as many elements, so the same ones
    have hcard : u.card ≤ t.card := by
      rw [← himage, Finset.card_image_of_injOn hinj]
    obtain rfl := Finset.eq_of_subset_of_card_le htu hcard
    refine ⟨rfl, ?_⟩
    -- and with the same sum, so none of them has moved down
    have hsum : ∑ i ∈ t, rank s i = ∑ i ∈ t, i := by
      calc ∑ i ∈ t, rank s i = ∑ j ∈ t.image (rank s), j :=
            (Finset.sum_image (f := fun j => j) hinj).symm
        _ = ∑ i ∈ t, i := by rw [himage]
    intro i hi
    exact rank_eq_iff.mp ((Finset.sum_eq_sum_iff_of_le fun i _ => rank_le s i).mp hsum i hi)
  · rintro ⟨rfl, hgap⟩
    have hid : ∀ i ∈ t, rank s i = i := fun i hi => rank_eq_iff.mpr (hgap i hi)
    ext j
    rw [Finset.mem_image]
    constructor
    · rintro ⟨i, hi, rfl⟩
      rw [hid i hi]
      exact hi
    · exact fun hj => ⟨j, hj, hid j hj⟩

end Monitoring.Lib
