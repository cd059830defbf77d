import Mathlib.Order.Defs.Unbundled

/-!
# `Monitoring.Lib.RunHeads`: the elements at which the key changes

A loop that remembers the key of the last element, and acts where the key is another one, acts at
the heads of the runs of equal keys. `mem_runHeads_iff` finds these heads without the loop, where
the list is strictly ascending: an element is a head if its key is not the one of the greatest
element below it. Where the keys ascend with the list, every key has one head (`pairwise_runHeads`,
`exists_runHead`).
-/

set_option autoImplicit false

namespace Monitoring.Lib

variable {α κ : Type}

/-- The elements whose key is not that of the element before. The key before the first element is
`k`. -/
def runHeads [DecidableEq κ] (key : α → κ) : κ → List α → List α
  | _, [] => []
  | k, a :: l => if key a = k then runHeads key k l else a :: runHeads key (key a) l

/-- The head of a run, told by an order: the greatest element below it has another key, and the
least element has another key than `k`. -/
def IsRunHead (r : α → α → Prop) (key : α → κ) (k : κ) (l : List α) (a : α) : Prop :=
  (∀ b ∈ l, r b a → (∀ c ∈ l, r c a → c = b ∨ r c b) → key b ≠ key a) ∧
    ((∀ c ∈ l, ¬ r c a) → key a ≠ k)

/-- Being a head depends on the elements only, not on their places. -/
theorem isRunHead_congr {r : α → α → Prop} {key : α → κ} {k : κ} {l l' : List α} {a : α}
    (h : ∀ b, b ∈ l ↔ b ∈ l') : IsRunHead r key k l a ↔ IsRunHead r key k l' a := by
  unfold IsRunHead
  simp only [h]

section
variable {r : α → α → Prop} [Std.Irrefl r] [IsTrans α r] {key : α → κ} {k : κ} {l : List α}
  {a b : α}

/-- Behind a new least element `b`, the key to start from is that of `b`. -/
theorem isRunHead_cons (hb : ∀ c ∈ l, r b c) (ha : a ∈ l) :
    IsRunHead r key k (b :: l) a ↔ IsRunHead r key (key b) l a := by
  constructor
  · rintro ⟨hbelow, -⟩
    refine ⟨fun d hd hda hmax => hbelow d (List.mem_cons_of_mem b hd) hda ?_, fun hleast => ?_⟩
    · intro c hc hca
      rcases List.mem_cons.mp hc with rfl | hc
      · exact Or.inr (hb d hd)
      · exact hmax c hc hca
    · refine (hbelow b List.mem_cons_self (hb a ha) ?_).symm
      intro c hc hca
      exact (List.mem_cons.mp hc).imp id fun hc => absurd hca (hleast c hc)
  · rintro ⟨hbelow, hleast⟩
    refine ⟨?_, fun h => absurd (hb a ha) (h b List.mem_cons_self)⟩
    intro d hd hda hmax
    rcases List.mem_cons.mp hd with rfl | hd
    · -- nothing of `l` is below `a`
      refine (hleast fun c hc hca => ?_).symm
      rcases hmax c (List.mem_cons_of_mem d hc) hca with rfl | hcd
      · exact irrefl_of r c (hb c hc)
      · exact irrefl_of r d (trans_of r (hb c hc) hcd)
    · exact hbelow d hd hda fun c hc hca => hmax c (List.mem_cons_of_mem b hc) hca

/-- The least element is a head if its key is not `k`. -/
theorem isRunHead_first (hb : ∀ c ∈ l, r b c) : IsRunHead r key k (b :: l) b ↔ key b ≠ k := by
  have hleast : ∀ c ∈ b :: l, ¬ r c b := by
    intro c hc hcb
    rcases List.mem_cons.mp hc with rfl | hc
    · exact irrefl_of r c hcb
    · exact irrefl_of r b (trans_of r (hb c hc) hcb)
  exact ⟨fun h => h.2 hleast, fun hne => ⟨fun d hd hdb => absurd hdb (hleast d hd), fun _ => hne⟩⟩

variable [DecidableEq κ]

/-- In a strictly ascending list the loop finds the heads that the order tells. -/
theorem mem_runHeads_iff (hl : l.Pairwise r) :
    a ∈ runHeads key k l ↔ a ∈ l ∧ IsRunHead r key k l a := by
  induction l generalizing k with
  | nil => exact iff_of_false List.not_mem_nil (fun h => List.not_mem_nil h.1)
  | cons b l ih =>
      obtain ⟨hb, hl⟩ := List.pairwise_cons.mp hl
      have hrest : a ∈ runHeads key (key b) l ↔ a ∈ l ∧ IsRunHead r key k (b :: l) a := by
        rw [ih hl]
        exact and_congr_right fun ha => (isRunHead_cons hb ha).symm
      unfold runHeads
      split
      · next heq =>
        rw [heq] at hrest
        rw [hrest]
        constructor
        · exact fun h => ⟨List.mem_cons_of_mem b h.1, h.2⟩
        · rintro ⟨ha, hhead⟩
          rcases List.mem_cons.mp ha with rfl | ha
          · exact absurd heq ((isRunHead_first hb).mp hhead)
          · exact ⟨ha, hhead⟩
      · next hne =>
        rw [List.mem_cons, hrest, List.mem_cons, or_and_right]
        refine or_congr_left ⟨?_, And.left⟩
        rintro rfl
        exact ⟨rfl, (isRunHead_first hb).mpr hne⟩

end

/-! ### Ascending keys -/

section
variable [DecidableEq κ] {lt : κ → κ → Prop} {key : α → κ} {k : κ} {l : List α}

/-- Where the keys ascend, from `k` on, the heads have keys above `k`. -/
theorem lt_key_of_mem_runHeads [IsTrans κ lt]
    (hl : l.Pairwise fun a b => key b = key a ∨ lt (key a) (key b))
    (hk : ∀ a ∈ l, key a = k ∨ lt k (key a)) {a : α} (ha : a ∈ runHeads key k l) :
    lt k (key a) := by
  induction l generalizing k with
  | nil => exact absurd ha List.not_mem_nil
  | cons b l ih =>
      obtain ⟨hb, hl⟩ := List.pairwise_cons.mp hl
      unfold runHeads at ha
      split at ha
      · exact ih hl (fun c hc => hk c (List.mem_cons_of_mem b hc)) ha
      · next hne =>
        have hkb : lt k (key b) := (hk b List.mem_cons_self).resolve_left hne
        rcases List.mem_cons.mp ha with rfl | ha
        · exact hkb
        · exact trans_of lt hkb (ih hl hb ha)

/-- Where the keys ascend, so do those of the heads, and each has a key of its own. -/
theorem pairwise_runHeads [IsTrans κ lt]
    (hl : l.Pairwise fun a b => key b = key a ∨ lt (key a) (key b)) :
    (runHeads key k l).Pairwise fun a b => lt (key a) (key b) := by
  induction l generalizing k with
  | nil => exact List.Pairwise.nil
  | cons b l ih =>
      obtain ⟨hb, hl⟩ := List.pairwise_cons.mp hl
      unfold runHeads
      split
      · exact ih hl
      · exact List.pairwise_cons.mpr ⟨fun c hc => lt_key_of_mem_runHeads hl hb hc, ih hl⟩

/-- Every key but `k` has a head, and it comes first. -/
theorem exists_runHead {r : α → α → Prop} (hl : l.Pairwise r) {a : α} (ha : a ∈ l)
    (hne : key a ≠ k) : ∃ h ∈ runHeads key k l, key h = key a ∧ (h = a ∨ r h a) := by
  induction l generalizing k with
  | nil => exact absurd ha List.not_mem_nil
  | cons b l ih =>
      obtain ⟨hb, hl⟩ := List.pairwise_cons.mp hl
      unfold runHeads
      rcases List.mem_cons.mp ha with rfl | ha
      · rw [if_neg hne]
        exact ⟨a, List.mem_cons_self, rfl, Or.inl rfl⟩
      · split
        · exact ih hl ha hne
        · by_cases hab : key a = key b
          · exact ⟨b, List.mem_cons_self, hab.symm, Or.inr (hb a ha)⟩
          · obtain ⟨h, hh, hkey⟩ := ih hl ha hab
            exact ⟨h, List.mem_cons_of_mem b hh, hkey⟩

end

end Monitoring.Lib
