import Mathlib.Algebra.GroupWithZero.Nat
import Mathlib.Data.List.Basic
import Mathlib.Data.List.Perm.Basic

/-!
# `Monitoring.Lib.Places`: the places of some threads

Where each of some threads is, is a list: the `i`-th element is the place of thread `i`. A step of
one thread is `List.set`. The lemmas here say what that does to a count of the threads at some kind
of place (`countP_set_add`), to a sum over all places (`sum_map_set_add`), and to what the threads
hold there (`filterMap_set_perm`). All of them come from `exists_split`. `sum_map_map_le` is for a
step that moves all threads.
-/

set_option autoImplicit false

namespace Monitoring.Lib

variable {α β : Type} {l : List α} {i : Nat} {a : α}

/-- One element among the others, which stay where they are. -/
theorem exists_split (h : l[i]? = some a) :
    ∃ front back, l = front ++ a :: back ∧ ∀ b, l.set i b = front ++ b :: back := by
  obtain ⟨hlt, hget⟩ := List.getElem?_eq_some_iff.mp h
  refine ⟨l.take i, l.drop (i + 1), ?_, fun b => List.set_eq_take_append_cons_drop ▸ if_pos hlt⟩
  rw [← hget, List.getElem_cons_drop, List.take_append_drop]

/-- How a count changes. -/
theorem countP_set_add (p : α → Bool) (h : l[i]? = some a) (b : α) :
    (l.set i b).countP p + (p a).toNat = l.countP p + (p b).toNat := by
  obtain ⟨front, back, hl, hset⟩ := exists_split h
  rw [hset, hl]
  simp only [List.countP_append, List.countP_cons]
  cases p a <;> cases p b <;> simp <;> omega

/-- How a sum changes. -/
theorem sum_map_set_add (f : α → Nat) (h : l[i]? = some a) (b : α) :
    ((l.set i b).map f).sum + f a = (l.map f).sum + f b := by
  obtain ⟨front, back, hl, hset⟩ := exists_split h
  rw [hset, hl]
  simp only [List.map_append, List.map_cons, List.sum_append, List.sum_cons]
  omega

/-- How the things that the threads hold change. -/
theorem filterMap_set_perm (f : α → Option β) (h : l[i]? = some a) (b : α) :
    ((l.set i b).filterMap f ++ (f a).toList).Perm (l.filterMap f ++ (f b).toList) := by
  obtain ⟨front, back, hl, hset⟩ := exists_split h
  have hgather (c : α) : ((front ++ c :: back).filterMap f).Perm
      ((f c).toList ++ (front ++ back).filterMap f) := by
    rw [List.filterMap_append, List.filterMap_append, List.filterMap_cons]
    cases f c with
    | none => exact List.Perm.refl _
    | some x => exact List.perm_middle
  rw [hset, hl]
  have hswap : ((f b).toList ++ (front ++ back).filterMap f ++ (f a).toList).Perm
      ((f a).toList ++ (front ++ back).filterMap f ++ (f b).toList) := by
    rw [List.append_assoc (f a).toList]
    exact List.perm_append_comm.trans (List.perm_append_comm.append_left _)
  exact ((hgather b).append_right _).trans (hswap.trans ((hgather a).symm.append_right _))

/-- A step of all threads raises the sum by what it raises the number of each. -/
theorem sum_map_map_le (f : α → Nat) {g : α → α} {c : Nat} (hg : ∀ a, f (g a) ≤ f a + c)
    (l : List α) : ((l.map g).map f).sum ≤ (l.map f).sum + l.length * c := by
  induction l with
  | nil => exact Nat.zero_le _
  | cons a l ih =>
      have ha := hg a
      simp only [List.map_cons, List.sum_cons, List.length_cons, Nat.succ_mul]
      omega

end Monitoring.Lib
