import Mathlib.Logic.Basic

/-!
# `Monitoring.Lib.While`: `while` loops with fuel

A C++ `while` loop need not end, so its model counts passes: `whileFuel cond body n s` runs
the loop from `s` for at most `n` passes. It is `some t` when the loop ends within `n`
passes, in the state `t`, and `none` otherwise. "The loop ends in `t`" is said of all large `n`.

`whileFuel_stop` and `whileFuel_pass` unfold a loop by one pass. `whileFuel_exit` is what is known
where it has ended, and `whileFuel_invariant` what every pass keeps. `whileFuel_states` runs a loop
whose states are known. A loop ends in one state, with any fuel that is enough (`whileFuel_unique`).

`LoopAt cond body s t` says that the loop from `s` comes to its condition in the state `t`, whether
it ends or not. Statements about every pass are made with it. `LoopAt.ends` is the rule for
termination: every pass lowers a measure.
-/

set_option autoImplicit false

namespace Monitoring.Lib

variable {σ : Type}

/-- `while (cond) body`, for at most the given number of passes. -/
def whileFuel (cond : σ → Bool) (body : σ → σ) : Nat → σ → Option σ
  | 0, s => if cond s then none else some s
  | n + 1, s => if cond s then whileFuel cond body n (body s) else some s

section
variable {cond : σ → Bool} {body : σ → σ}

/-- The loop ends at once when the condition fails. -/
theorem whileFuel_stop {s : σ} (n : Nat) (h : cond s = false) :
    whileFuel cond body n s = some s := by
  cases n <;> simp [whileFuel, h]

/-- One pass. -/
theorem whileFuel_pass {s : σ} (n : Nat) (h : cond s = true) :
    whileFuel cond body (n + 1) s = whileFuel cond body n (body s) := by
  simp [whileFuel, h]

/-- Where a loop ends, its condition fails. -/
theorem whileFuel_exit {n : Nat} {s t : σ} (h : whileFuel cond body n s = some t) :
    cond t = false := by
  induction n generalizing s with
  | zero =>
      cases hc : cond s with
      | true => simp [whileFuel, hc] at h
      | false =>
          rw [whileFuel_stop _ hc] at h
          cases h
          exact hc
  | succ n ih =>
      cases hc : cond s with
      | true =>
          rw [whileFuel_pass _ hc] at h
          exact ih h
      | false =>
          rw [whileFuel_stop _ hc] at h
          cases h
          exact hc

/-- What every pass keeps holds where the loop has ended. -/
theorem whileFuel_invariant {Inv : σ → Prop} (hbody : ∀ s, Inv s → Inv (body s)) {n : Nat}
    {s t : σ} (hs : Inv s) (h : whileFuel cond body n s = some t) : Inv t := by
  induction n generalizing s with
  | zero =>
      cases hc : cond s with
      | true => simp [whileFuel, hc] at h
      | false =>
          rw [whileFuel_stop _ hc] at h
          cases h
          exact hs
  | succ n ih =>
      cases hc : cond s with
      | true =>
          rw [whileFuel_pass _ hc] at h
          exact ih (hbody s hs) h
      | false =>
          rw [whileFuel_stop _ hc] at h
          cases h
          exact hs

/-- The fuel does not matter where it is enough. -/
theorem whileFuel_unique {n m : Nat} {s t u : σ} (ht : whileFuel cond body n s = some t)
    (hu : whileFuel cond body m s = some u) : t = u := by
  induction n generalizing m s with
  | zero =>
      cases hc : cond s with
      | true => simp [whileFuel, hc] at ht
      | false =>
          rw [whileFuel_stop _ hc] at ht hu
          exact Option.some.inj (ht.symm.trans hu)
  | succ n ih =>
      cases hc : cond s with
      | true =>
          cases m with
          | zero => simp [whileFuel, hc] at hu
          | succ m =>
              rw [whileFuel_pass _ hc] at ht hu
              exact ih ht hu
      | false =>
          rw [whileFuel_stop _ hc] at ht hu
          exact Option.some.inj (ht.symm.trans hu)

/-- A loop that goes from one given state to the next, until the condition fails. -/
theorem whileFuel_states {s : Nat → σ} {k : Nat}
    (hpass : ∀ i < k, cond (s i) = true ∧ body (s i) = s (i + 1)) (hstop : cond (s k) = false)
    {n : Nat} (hn : k ≤ n) : whileFuel cond body n (s 0) = some (s k) := by
  induction k generalizing s n with
  | zero => exact whileFuel_stop n hstop
  | succ k ih =>
      obtain ⟨m, rfl⟩ : ∃ m, n = m + 1 := ⟨n - 1, by omega⟩
      obtain ⟨hcond, hbody⟩ := hpass 0 (Nat.succ_pos k)
      rw [whileFuel_pass m hcond, hbody]
      exact ih (s := fun i => s (i + 1)) (fun i hi => hpass (i + 1) (by omega)) hstop (by omega)

/-! ### The states of a loop -/

variable (cond body) in
/-- The loop from `s` comes to its condition in this state. -/
inductive LoopAt (s : σ) : σ → Prop
  | start : LoopAt s s
  | pass {t : σ} (h : LoopAt s t) (hcond : cond t = true) : LoopAt s (body t)

/-- What every pass keeps holds in all states of the loop. -/
theorem LoopAt.invariant {Inv : σ → Prop}
    (hbody : ∀ t, Inv t → cond t = true → Inv (body t)) {s t : σ} (hs : Inv s)
    (h : LoopAt cond body s t) : Inv t := by
  induction h with
  | start => exact hs
  | pass _ hcond ih => exact hbody _ ih hcond

/-- The rest of a loop is the loop from the state it has come to. -/
theorem LoopAt.rest {s t : σ} (h : LoopAt cond body s t) :
    ∃ k, ∀ n, whileFuel cond body (k + n) s = whileFuel cond body n t := by
  induction h with
  | start => exact ⟨0, fun n => by rw [Nat.zero_add]⟩
  | pass _ hcond ih =>
      obtain ⟨k, hk⟩ := ih
      refine ⟨k + 1, fun n => ?_⟩
      rw [Nat.add_assoc, Nat.add_comm 1 n, hk, whileFuel_pass n hcond]

/-- Where every pass lowers a measure, the loop ends. -/
theorem LoopAt.ends (measure : σ → Nat) {s : σ}
    (hbody : ∀ t, LoopAt cond body s t → cond t = true → measure (body t) < measure t) :
    ∃ n u, ∀ fuel, n ≤ fuel → whileFuel cond body fuel s = some u := by
  have hloop : ∀ m t, LoopAt cond body s t → measure t < m →
      ∃ n u, ∀ fuel, n ≤ fuel → whileFuel cond body fuel t = some u := by
    intro m
    induction m with
    | zero => exact fun t _ hlt => absurd hlt (Nat.not_lt_zero _)
    | succ m ih =>
        intro t ht hlt
        cases hc : cond t with
        | false => exact ⟨0, t, fun fuel _ => whileFuel_stop fuel hc⟩
        | true =>
            obtain ⟨n, u, hu⟩ := ih (body t) (ht.pass hc) (by have := hbody t ht hc; omega)
            refine ⟨n + 1, u, fun fuel hfuel => ?_⟩
            obtain ⟨fuel, rfl⟩ : ∃ k, fuel = k + 1 := ⟨fuel - 1, by omega⟩
            rw [whileFuel_pass fuel hc]
            exact hu fuel (by omega)
  exact hloop _ s .start (Nat.lt_succ_self _)

/-- A pass that changes nothing is repeated for ever. -/
theorem whileFuel_stuck {s : σ} (hc : cond s = true) (hbody : body s = s) (n : Nat) :
    whileFuel cond body n s = none := by
  induction n with
  | zero => simp [whileFuel, hc]
  | succ n ih => rw [whileFuel_pass n hc, hbody, ih]

end

end Monitoring.Lib
