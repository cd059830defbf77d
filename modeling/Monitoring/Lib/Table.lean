import Mathlib.Data.List.AList

/-!
# `Monitoring.Lib.Table`: `std::map` as Mathlib's `AList`

A `Table κ ν` has each key once, by construction. The three ways a C++ program writes to a
`std::map` are three functions: assignment through `operator[]` (`set`), `insert`, which never
overwrites (`insertNew`), and reading through `operator[]`, which creates the entry it does not
find (`touch`, with the value in `read`).

One `lookup` lemma for each is all that later proofs use.
-/

set_option autoImplicit false

namespace Monitoring.Lib

/-- A `std::map`. -/
abbrev Table (κ ν : Type) := AList fun _ : κ => ν

namespace Table

variable {κ ν : Type} [DecidableEq κ]

/-- `m[k] = v`. -/
def set (t : Table κ ν) (k : κ) (v : ν) : Table κ ν := t.insert k v

/-- `m.insert(std::pair(k, v))`: an entry that is there stays. -/
def insertNew (t : Table κ ν) (k : κ) (v : ν) : Table κ ν := if k ∈ t then t else t.insert k v

/-- The value `m[k]` reads; a missing entry reads as the value-initialised `d`. -/
def read (t : Table κ ν) (k : κ) (d : ν) : ν := (t.lookup k).getD d

/-- `m[k] = v` where there is a value to assign. -/
def assign (t : Table κ ν) (k : κ) : Option ν → Table κ ν
  | none => t
  | some v => t.set k v

/-- What evaluating `m[k]` leaves behind: the entry `k` exists. -/
def touch (t : Table κ ν) (k : κ) (d : ν) : Table κ ν := t.insertNew k d

variable (t : Table κ ν) (k k' : κ) (v : ν)

theorem lookup_set : (t.set k v).lookup k' = if k' = k then some v else t.lookup k' := by
  unfold set
  by_cases h : k' = k
  · subst h
    rw [if_pos rfl, AList.lookup_insert]
  · rw [if_neg h, AList.lookup_insert_ne h]

theorem lookup_insertNew :
    (t.insertNew k v).lookup k' = if k' = k ∧ k ∉ t then some v else t.lookup k' := by
  unfold insertNew
  by_cases hk : k ∈ t
  · simp [hk]
  · rw [if_neg hk]
    by_cases h : k' = k
    · subst h
      rw [if_pos ⟨rfl, hk⟩, AList.lookup_insert]
    · rw [if_neg (fun hh => h hh.1), AList.lookup_insert_ne h]

@[simp] theorem mem_set : k' ∈ t.set k v ↔ k' = k ∨ k' ∈ t := AList.mem_insert t

@[simp] theorem mem_insertNew : k' ∈ t.insertNew k v ↔ k' = k ∨ k' ∈ t := by
  unfold insertNew
  split
  · rename_i hk
    constructor
    · exact Or.inr
    · rintro (rfl | h)
      · exact hk
      · exact h
  · exact AList.mem_insert t

theorem lookup_touch :
    (t.touch k v).lookup k' = if k' = k ∧ k ∉ t then some v else t.lookup k' :=
  lookup_insertNew t k k' v

theorem read_set (d : ν) : (t.set k v).read k' d = if k' = k then v else t.read k' d := by
  show ((t.set k v).lookup k').getD d = _
  rw [lookup_set]
  split <;> rfl

/-- An entry that is created reads as it did before. -/
@[simp] theorem read_touch_self : (t.touch k v).read k' v = t.read k' v := by
  unfold read
  rw [lookup_touch]
  by_cases h : k' = k ∧ k ∉ t
  · obtain ⟨rfl, hk⟩ := h
    rw [if_pos ⟨rfl, hk⟩, AList.lookup_eq_none.mpr hk]
    rfl
  · rw [if_neg h]

/-- Reading through `operator[]` returns what it leaves behind. -/
theorem read_touch : (t.touch k v).lookup k = some ((t.touch k v).read k v) := by
  unfold read
  rw [lookup_touch]
  by_cases hk : k ∈ t
  · rw [if_neg (fun h => h.2 hk)]
    obtain ⟨w, hw⟩ := Option.isSome_iff_exists.mp (AList.lookup_isSome.mpr hk)
    rw [hw, Option.getD_some]
  · rw [if_pos ⟨rfl, hk⟩, Option.getD_some]

@[simp] theorem mem_touch : k' ∈ t.touch k v ↔ k' = k ∨ k' ∈ t := mem_insertNew t k k' v

theorem lookup_assign (v : Option ν) :
    (t.assign k v).lookup k' = if k' = k then v.or (t.lookup k') else t.lookup k' := by
  cases v with
  | none => exact (ite_self _).symm
  | some v => exact lookup_set t k k' v

/-- Where a loop assigns to one key after the other, only the passes for a key change its entry. -/
theorem lookup_foldl_assign (keys : List κ) (v : κ → Option ν) :
    (keys.foldl (fun t k => t.assign k (v k)) t).lookup k
      = if k ∈ keys then (v k).or (t.lookup k) else t.lookup k := by
  induction keys generalizing t with
  | nil => simp
  | cons k' keys ih =>
      rw [List.foldl_cons, ih, lookup_assign]
      by_cases hk : k = k'
      · subst hk
        by_cases hmem : k ∈ keys <;> simp [hmem, Option.or_assoc.symm]
      · simp [hk]

/-- Of the entries that are inserted one after the other, the first one for a key stays. -/
theorem lookup_foldl_insertNew (entries : List (κ × ν)) :
    (entries.foldl (fun t e => t.insertNew e.1 e.2) t).lookup k
      = (t.lookup k).or ((entries.find? fun e => e.1 = k).map Prod.snd) := by
  induction entries generalizing t with
  | nil => simp
  | cons e entries ih =>
      rw [List.foldl_cons, ih, lookup_insertNew, List.find?_cons]
      by_cases hk : e.1 = k
      · subst hk
        by_cases hmem : e.1 ∈ t
        · obtain ⟨w, hw⟩ := Option.isSome_iff_exists.mp (AList.lookup_isSome.mpr hmem)
          simp [hmem, hw]
        · simp [hmem, AList.lookup_eq_none.mpr hmem]
      · rw [if_neg fun h => hk h.1.symm]
        simp [hk]

end Table

end Monitoring.Lib
