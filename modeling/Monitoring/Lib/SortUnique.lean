import Mathlib.Data.List.Sort

/-!
# `Monitoring.Lib.SortUnique`: `std::sort`, then `erase(unique(..))`

The C++ idiom for "the distinct elements of a vector" sorts it and then drops every element
equal to the one before it. `unique` is that second step; the first is Mathlib's
`List.insertionSort`, whose result is the sorted permutation, as `std::sort`'s is when equal
elements cannot be told apart.

`mem_sortUnique` and `nodup_sortUnique` say what the idiom is for: the same elements, each
once. They stand in order (`pairwise_sortUnique`).
-/

set_option autoImplicit false

namespace Monitoring.Lib

variable {α : Type} [DecidableEq α]

/-- `v.erase(std::unique(v.begin(), v.end()), v.end())`: of each run of equal elements, only
one stays. -/
def unique : List α → List α
  | [] => []
  | [a] => [a]
  | a :: b :: l => if a = b then unique (b :: l) else a :: unique (b :: l)

/-- `unique` keeps one of each element. -/
@[simp] theorem mem_unique {x : α} (l : List α) : x ∈ unique l ↔ x ∈ l := by
  fun_induction unique l with
  | case1 => rfl
  | case2 a => rfl
  | case3 a l ih => simp [ih]
  | case4 a b l hab ih => simp [ih]

/-- `unique` only leaves elements out. -/
theorem unique_sublist (l : List α) : (unique l).Sublist l := by
  fun_induction unique l with
  | case1 => exact List.Sublist.refl _
  | case2 a => exact List.Sublist.refl _
  | case3 a l ih => exact ih.cons a
  | case4 a b l hab ih => exact ih.cons_cons a

/-- On a sorted list `unique` leaves no repetition: the elements equal to the head stand right
behind it. -/
theorem nodup_unique_of_pairwise {r : α → α → Prop} [Std.Antisymm r] {l : List α}
    (h : l.Pairwise r) : (unique l).Nodup := by
  fun_induction unique l with
  | case1 => exact List.nodup_nil
  | case2 a => exact List.nodup_singleton a
  | case3 a l ih => exact ih (List.pairwise_cons.mp h).2
  | case4 a b l hab ih =>
      obtain ⟨ha, hbl⟩ := List.pairwise_cons.mp h
      refine List.nodup_cons.mpr ⟨?_, ih hbl⟩
      rw [mem_unique]
      intro hmem
      have hba : r b a := by
        rcases List.mem_cons.mp hmem with rfl | hmem
        · exact absurd rfl hab
        · exact (List.pairwise_cons.mp hbl).1 a hmem
      exact hab (Std.Antisymm.antisymm a b (ha b (by simp)) hba)

section
variable (r : α → α → Prop) [DecidableRel r]

/-- `std::sort` followed by `erase(unique(..))`. -/
def sortUnique (l : List α) : List α := unique (l.insertionSort r)

/-- Sorting and dropping repetitions keeps the elements. -/
@[simp] theorem mem_sortUnique {x : α} (l : List α) : x ∈ sortUnique r l ↔ x ∈ l := by
  unfold sortUnique
  rw [mem_unique, List.mem_insertionSort]

/-- The idiom leaves each element once. -/
theorem nodup_sortUnique [Std.Antisymm r] [Std.Total r] [IsTrans α r] (l : List α) :
    (sortUnique r l).Nodup :=
  nodup_unique_of_pairwise (List.pairwise_insertionSort r l)

/-- The idiom leaves the elements in order. -/
theorem pairwise_sortUnique [Std.Antisymm r] [Std.Total r] [IsTrans α r] (l : List α) :
    (sortUnique r l).Pairwise fun a b => r a b ∧ a ≠ b :=
  ((List.pairwise_insertionSort r l).sublist (unique_sublist _)).and (nodup_sortUnique r l)

end

end Monitoring.Lib
