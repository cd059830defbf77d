import Mathlib.Data.List.Basic
import Mathlib.Data.List.Nodup

/-!
# `Monitoring.Lib.UniqueTable`: a table with a UNIQUE key

An `INSERT` into such a table adds the row, or fails if there is a row with its key already
(`insertUnique`). So the keys stay different (`nodup_insertUnique`), rows are never replaced, and a
row that is inserted again changes nothing. `insertAll` inserts rows one after the other: the first
row of a key stays (`mem_insertAll`), and where rows of one key are equal, the table has all of them
(`mem_insertAll_of_agree`), in whatever order they came.

`insertUnique_map` moves an insertion along a map of the rows that keeps the keys apart. Such a map
is to replace the ids in the rows by what they stand for: `keyById` looks a key up in a table with
an id for each row (`keyById_inj`), and does not change when rows are added (`keyById_append`).
-/

set_option autoImplicit false

namespace Monitoring.Lib

variable {α β κ ι : Type}

section
variable [DecidableEq κ] [DecidableEq ι]

/-- Adds a row, unless there is one with its key. -/
def insertUnique (key : α → κ) (row : α) (rows : List α) : List α :=
  if key row ∈ rows.map key then rows else rows ++ [row]

/-- Adds rows in their order. -/
def insertAll (key : α → κ) (rows new : List α) : List α :=
  new.foldl (fun rows row => insertUnique key row rows) rows

variable {key : α → κ} {rows new : List α} {row x : α}

/-- The keys stay different. -/
theorem nodup_insertUnique (h : (rows.map key).Nodup) :
    ((insertUnique key row rows).map key).Nodup := by
  unfold insertUnique
  split
  · exact h
  · rename_i hnew
    rw [List.map_append, List.nodup_append]
    refine ⟨h, List.nodup_singleton _, fun a ha b hb hab => hnew ?_⟩
    obtain rfl := List.mem_singleton.mp hb
    exact hab ▸ ha

/-- Rows are only added. -/
theorem subset_insertUnique : rows ⊆ insertUnique key row rows := by
  unfold insertUnique
  split
  · exact List.Subset.refl _
  · exact List.subset_append_left _ _

theorem mem_of_mem_insertUnique (h : x ∈ insertUnique key row rows) : x ∈ rows ∨ x = row := by
  unfold insertUnique at h
  split at h
  · exact Or.inl h
  · exact (List.mem_append.mp h).imp_right List.mem_singleton.mp

/-- Afterwards there is a row with the key. -/
theorem key_mem_insertUnique : key row ∈ (insertUnique key row rows).map key := by
  unfold insertUnique
  split
  · assumption
  · rw [List.map_append]
    exact List.mem_append_right _ (List.mem_singleton_self _)

/-- A map of the rows that keeps the key of the new row apart from the keys that are there. -/
theorem insertUnique_map (f : α → β) (key' : β → ι)
    (h : ∀ x ∈ rows, key x = key row ↔ key' (f x) = key' (f row)) :
    (insertUnique key row rows).map f = insertUnique key' (f row) (rows.map f) := by
  have hmem : key row ∈ rows.map key ↔ key' (f row) ∈ (rows.map f).map key' := by
    simp only [List.mem_map, exists_exists_and_eq_and]
    exact exists_congr fun x => and_congr_right (h x)
  unfold insertUnique
  by_cases hkey : key row ∈ rows.map key
  · rw [if_pos hkey, if_pos (hmem.mp hkey)]
  · rw [if_neg hkey, if_neg (mt hmem.mpr hkey), List.map_append]
    rfl

theorem insertAll_append (more : List α) :
    insertAll key rows (new ++ more) = insertAll key (insertAll key rows new) more :=
  List.foldl_append ..

theorem subset_insertAll : rows ⊆ insertAll key rows new := by
  induction new generalizing rows with
  | nil => exact List.Subset.refl _
  | cons row new ih => exact List.Subset.trans subset_insertUnique ih

/-- Every row comes from somewhere. -/
theorem mem_insertAll (h : x ∈ insertAll key rows new) : x ∈ rows ∨ x ∈ new := by
  induction new generalizing rows with
  | nil => exact Or.inl h
  | cons row new ih =>
      rcases ih h with hx | hx
      · rcases mem_of_mem_insertUnique hx with hx | rfl
        · exact Or.inl hx
        · exact Or.inr (List.mem_cons_self ..)
      · exact Or.inr (List.mem_cons_of_mem _ hx)

/-- Every key that was inserted is there. -/
theorem key_mem_insertAll (h : x ∈ new) : key x ∈ (insertAll key rows new).map key := by
  induction new generalizing rows with
  | nil => cases h
  | cons row new ih =>
      rcases List.mem_cons.mp h with rfl | h
      · have hsub : insertUnique key x rows ⊆ insertAll key (insertUnique key x rows) new :=
          subset_insertAll
        exact List.map_subset key hsub key_mem_insertUnique
      · exact ih h

/-- Of a table with different keys, one row has the key of a row that is there. -/
theorem filter_key_eq (hkeys : (rows.map key).Nodup) (hx : x ∈ rows) :
    rows.filter (fun y => key y = key x) = [x] := by
  induction rows with
  | nil => cases hx
  | cons y rows ih =>
      obtain ⟨hnew, hkeys⟩ := List.nodup_cons.mp hkeys
      rcases List.mem_cons.mp hx with rfl | hx
      · have hnone : rows.filter (fun y => key y = key x) = [] := by
          refine List.filter_eq_nil_iff.mpr fun y hy hkey => hnew ?_
          exact of_decide_eq_true hkey ▸ List.mem_map_of_mem hy
        rw [List.filter_cons_of_pos (by simp), hnone]
      · have hother : key y ≠ key x := fun hkey => hnew (hkey ▸ List.mem_map_of_mem hx)
        rw [List.filter_cons_of_neg (by simpa using hother), ih hkeys hx]

/-- A row is there if every row with its key is equal to it. -/
theorem mem_insertAll_of_agree (h : x ∈ new) (hrows : ∀ y ∈ rows, key y = key x → y = x)
    (hnew : ∀ y ∈ new, key y = key x → y = x) : x ∈ insertAll key rows new := by
  have hmem : key x ∈ (insertAll key rows new).map key := key_mem_insertAll h
  obtain ⟨y, hy, hkey⟩ := List.mem_map.mp hmem
  rcases mem_insertAll hy with hold | hold
  · exact hrows y hold hkey ▸ hy
  · exact hnew y hold hkey ▸ hy

end

/-! ### Ids -/

section
variable [DecidableEq ι]

/-- The key of the row with this id. -/
def keyById (id : α → ι) (key : α → κ) (rows : List α) (i : ι) : Option κ :=
  (rows.find? fun row => id row = i).map key

variable {id : α → ι} {key : α → κ} {rows new : List α} {row : α} {i j : ι}

theorem keyById_of_mem (hids : (rows.map id).Nodup) (h : row ∈ rows) :
    keyById id key rows (id row) = some (key row) := by
  unfold keyById
  cases hfind : rows.find? fun x => id x = id row with
  | none =>
      have hno := List.find?_eq_none.mp hfind row h
      exact absurd (decide_eq_true rfl) hno
  | some x =>
      have hx := List.mem_of_find?_eq_some hfind
      have hid : id x = id row := by simpa using List.find?_some hfind
      rw [List.inj_on_of_nodup_map hids hx h hid]
      rfl

/-- An id that is there keeps its key. -/
theorem keyById_append (h : i ∈ rows.map id) :
    keyById id key (rows ++ new) i = keyById id key rows i := by
  obtain ⟨row, hrow, rfl⟩ := List.mem_map.mp h
  unfold keyById
  rw [List.find?_append]
  cases hfind : rows.find? fun x => id x = id row with
  | none =>
      have hno := List.find?_eq_none.mp hfind row hrow
      exact absurd (decide_eq_true rfl) hno
  | some x => rfl

/-- Different ids have different keys. -/
theorem keyById_inj (hids : (rows.map id).Nodup) (hkeys : (rows.map key).Nodup)
    (hi : i ∈ rows.map id) (hj : j ∈ rows.map id) :
    keyById id key rows i = keyById id key rows j ↔ i = j := by
  obtain ⟨x, hx, rfl⟩ := List.mem_map.mp hi
  obtain ⟨y, hy, rfl⟩ := List.mem_map.mp hj
  rw [keyById_of_mem hids hx, keyById_of_mem hids hy, Option.some.injEq]
  constructor
  · exact fun h => congrArg id (List.inj_on_of_nodup_map hkeys hx hy h)
  · exact fun h => congrArg key (List.inj_on_of_nodup_map hids hx hy h)

end

end Monitoring.Lib
