import Mathlib.Init

/-!
# `Monitoring.Lib.Raise`: actions that raise and keep what they have assigned

`EStateM ε σ` is for code with assignments and exceptions: an action that raises leaves behind what
was assigned before. `finalState` is the state behind an action, however it ended.

Three judgements compose along `>>=`. `Keeps f x` says that `x` leaves alone what `f` reads.
`ReturnsIff x p` says when `x` does not raise, for an `x` where this does not depend on the state.
`SetsIf f x p v` says that `f` reads `v` behind `x` if `p` holds, and what it did before otherwise.

`foldlM_of_accepts` and `foldlM_raises` are for a loop whose body raises at an element or not,
whatever has been collected before.
-/

set_option autoImplicit false

namespace Monitoring.Lib

variable {ε σ α β γ : Type}

/-- The state behind an action. -/
def finalState : EStateM.Result ε σ α → σ
  | .ok _ s => s
  | .error _ s => s

/-- `x` does not change what `f` reads. -/
def Keeps (f : σ → γ) (x : EStateM ε σ α) : Prop := ∀ s, f (finalState (x s)) = f s

/-- `x` returns exactly if `p` holds. -/
def ReturnsIff (x : EStateM ε σ α) (p : Prop) : Prop := ∀ s, (∃ a t, x s = .ok a t) ↔ p

/-- What `f` reads is `v` behind `x` if `p` holds, and does not change otherwise. -/
def SetsIf (f : σ → γ) (x : EStateM ε σ α) (p : Prop) [Decidable p] (v : γ) : Prop :=
  ∀ s, f (finalState (x s)) = if p then v else f s

section
variable {f : σ → γ} {x : EStateM ε σ α} {k : α → EStateM ε σ β} {p q : Prop} {v : γ}

/-- A sequence ends where its first part raises, or where its second part ends. -/
theorem bind_apply (s : σ) :
    (x >>= k) s = match x s with
      | .ok a t => k a t
      | .error e t => .error e t := rfl

theorem Keeps.pure (a : α) : Keeps f (pure a : EStateM ε σ α) := fun _ => rfl

theorem Keeps.throw (e : ε) : Keeps f (throw e : EStateM ε σ α) := fun _ => rfl

theorem Keeps.modify {g : σ → σ} (h : ∀ s, f (g s) = f s) :
    Keeps f (modify g : EStateM ε σ PUnit) := h

theorem Keeps.comp {δ : Type} (g : γ → δ) (h : Keeps f x) : Keeps (fun s => g (f s)) x :=
  fun s => congrArg g (h s)

theorem Keeps.bind (hx : Keeps f x) (hk : ∀ a, Keeps f (k a)) : Keeps f (x >>= k) := by
  intro s
  have hs := hx s
  rw [bind_apply]
  cases h : x s with
  | ok a t =>
      rw [h] at hs
      exact (hk a t).trans hs
  | error e t =>
      rw [h] at hs
      exact hs

theorem ReturnsIff.pure (a : α) : ReturnsIff (pure a : EStateM ε σ α) True :=
  fun s => iff_of_true ⟨a, s, rfl⟩ trivial

theorem ReturnsIff.throw (e : ε) : ReturnsIff (throw e : EStateM ε σ α) False :=
  fun _ => iff_of_false (fun ⟨_, _, h⟩ => by cases h) id

theorem ReturnsIff.modify (g : σ → σ) : ReturnsIff (modify g : EStateM ε σ PUnit) True :=
  fun s => iff_of_true ⟨PUnit.unit, g s, rfl⟩ trivial

theorem ReturnsIff.congr (h : ReturnsIff x p) (hpq : p ↔ q) : ReturnsIff x q :=
  fun s => (h s).trans hpq

theorem ReturnsIff.bind (hx : ReturnsIff x p) (hk : ∀ a, ReturnsIff (k a) q) :
    ReturnsIff (x >>= k) (p ∧ q) := by
  intro s
  rw [bind_apply, ← hx s]
  cases h : x s with
  | ok a t =>
      rw [hk a t]
      exact ⟨fun hq => ⟨⟨a, t, rfl⟩, hq⟩, fun hpq => hpq.2⟩
  | error e t =>
      refine iff_of_false ?_ ?_
      · rintro ⟨a, u, hu⟩
        cases hu
      · rintro ⟨⟨a, u, hu⟩, -⟩
        cases hu

/-- The sequence sets a value in its second part, if the first one returns. -/
theorem SetsIf.bind [Decidable p] [Decidable q] (hkeeps : Keeps f x) (hreturns : ReturnsIff x p)
    (hk : ∀ a, SetsIf f (k a) q v) : SetsIf f (x >>= k) (p ∧ q) v := by
  intro s
  have hs := hkeeps s
  have hp := hreturns s
  rw [bind_apply]
  cases h : x s with
  | ok a t =>
      rw [h] at hs hp
      have hp : p := hp.mp ⟨a, t, rfl⟩
      change f t = f s at hs
      rw [← hs]
      simpa only [hp, true_and] using hk a t
  | error e t =>
      rw [h] at hs hp
      have hp : ¬ p := fun hp' => by
        obtain ⟨a, u, hu⟩ := hp.mpr hp'
        cases hu
      rw [if_neg fun hpq => hp hpq.1]
      exact hs

/-- The sequence sets a value in its first part. -/
theorem SetsIf.bind_keeps [Decidable p] (hx : SetsIf f x p v) (hk : ∀ a, Keeps f (k a)) :
    SetsIf f (x >>= k) p v := by
  intro s
  have hs := hx s
  rw [bind_apply]
  cases h : x s with
  | ok a t =>
      rw [h] at hs
      exact (hk a t).trans hs
  | error e t =>
      rw [h] at hs
      exact hs

theorem SetsIf.modify {g : σ → σ} (h : ∀ s, f (g s) = v) :
    SetsIf f (modify g : EStateM ε σ PUnit) True v := fun s => (h s).trans (if_pos trivial).symm

end

/-! ### Loops -/

/-- What one pass leaves if it does not raise. -/
def passOr (f : α → β → Except ε α) (a : α) (b : β) : α :=
  match f a b with
  | .ok a' => a'
  | .error _ => a

section
variable {f : α → β → Except ε α} {accepts : β → Prop} {Inv : α → Prop} {a : α} {xs : List β}

/-- A loop that accepts every element does not raise. -/
theorem foldlM_of_accepts
    (hok : ∀ a b, Inv a → accepts b → ∃ a', f a b = .ok a' ∧ Inv a') (ha : Inv a)
    (h : ∀ b ∈ xs, accepts b) :
    xs.foldlM f a = .ok (xs.foldl (passOr f) a) ∧ Inv (xs.foldl (passOr f) a) := by
  induction xs generalizing a with
  | nil => exact ⟨rfl, ha⟩
  | cons b xs ih =>
      obtain ⟨a', hpass, ha'⟩ := hok a b ha (h b List.mem_cons_self)
      have hor : passOr f a b = a' := by
        unfold passOr
        rw [hpass]
      rw [List.foldlM_cons, hpass, List.foldl_cons, hor]
      exact ih ha' fun c hc => h c (List.mem_cons_of_mem _ hc)

/-- A loop raises at the first element that is not accepted. -/
theorem foldlM_raises
    (hok : ∀ a b, Inv a → accepts b → ∃ a', f a b = .ok a' ∧ Inv a')
    (herror : ∀ a b, Inv a → ¬ accepts b → ∃ e, f a b = .error e) (ha : Inv a)
    (h : ∃ b ∈ xs, ¬ accepts b) : ∃ e, xs.foldlM f a = .error e := by
  induction xs generalizing a with
  | nil => exact absurd h (by simp)
  | cons b xs ih =>
      rw [List.foldlM_cons]
      by_cases hb : accepts b
      · obtain ⟨a', hpass, ha'⟩ := hok a b ha hb
        obtain ⟨c, hc, hnot⟩ := h
        have hmem : c ∈ xs := (List.mem_cons.mp hc).resolve_left fun heq => hnot (heq ▸ hb)
        rw [hpass]
        exact ih ha' ⟨c, hmem, hnot⟩
      · obtain ⟨e, he⟩ := herror a b ha hb
        exact ⟨e, by rw [he]; rfl⟩

end

end Monitoring.Lib
