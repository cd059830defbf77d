import Mathlib.Data.List.Basic
import Monitoring.Lib.While

/-!
# `Monitoring.Lib.Run`: runs of labelled transition systems

A system is a partial step function `step : σ → ε → Option σ`: what an action of one of the
parties, or of the environment, does to the common state, and `none` where the action is not
possible. An interleaving is a list of actions, and `run step es s` plays it.

`run_invariant` is the induction over runs: what holds at the start and is kept by every step holds
of every state reached. `AllSteps step ok es s` says that every step of the run meets a condition
on the action and the state before it, and `run_invariant_of_allSteps` is the induction for such
runs. `allSteps_of_invariant` and `allSteps_congr` exchange such a condition for one that an
invariant makes weaker, or equivalent; `allSteps_kept_iff`, `allSteps_next_iff` and
`allSteps_stays_iff` are for properties that a step keeps exactly if it meets the condition.
`allSteps_of_forall` is for a condition on the actions only, and `run_length_le` bounds a run of
steps that lower a measure. `allSteps_ghost` adds components to the state that the steps do not
read. `run_of_whileFuel` turns a loop into a run: it is enough that each pass is one.
-/

set_option autoImplicit false

namespace Monitoring.Lib

variable {σ ε : Type}

/-- Plays the actions in order; `none` when one of them is not possible. -/
def run (step : σ → ε → Option σ) : List ε → σ → Option σ
  | [], s => some s
  | e :: es, s => (step s e).bind (run step es)

/-- Every step of the run meets `ok`, a condition on the state before the step and the
action. Steps after an impossible one do not count. -/
def AllSteps (step : σ → ε → Option σ) (ok : σ → ε → Prop) : List ε → σ → Prop
  | [], _ => True
  | e :: es, s => ok s e ∧ ∀ t, step s e = some t → AllSteps step ok es t

/-- On given actions the condition can be checked step by step. -/
instance decidableAllSteps {step : σ → ε → Option σ} {ok : σ → ε → Prop}
    [hok : ∀ s e, Decidable (ok s e)] : ∀ es s, Decidable (AllSteps step ok es s)
  | [], _ => isTrue trivial
  | e :: es, s =>
      match hstep : step s e with
      | none => decidable_of_iff (ok s e) (by simp [AllSteps, hstep])
      | some t =>
          have : Decidable (AllSteps step ok es t) := decidableAllSteps es t
          decidable_of_iff (ok s e ∧ AllSteps step ok es t) (by simp [AllSteps, hstep])

section
variable {step : σ → ε → Option σ}

@[simp] theorem run_nil (s : σ) : run step [] s = some s := rfl

@[simp] theorem run_cons (e : ε) (es : List ε) (s : σ) :
    run step (e :: es) s = (step s e).bind (run step es) := rfl

/-- A run is a first step and a run from there. -/
theorem run_cons_eq_some {e : ε} {es : List ε} {s u : σ} :
    run step (e :: es) s = some u ↔ ∃ t, step s e = some t ∧ run step es t = some u := by
  rw [run_cons, Option.bind_eq_some_iff]

/-- A run through two lists of actions. -/
theorem run_append (es fs : List ε) (s : σ) :
    run step (es ++ fs) s = (run step es s).bind (run step fs) := by
  induction es generalizing s with
  | nil => rfl
  | cons e es ih =>
      rw [List.cons_append, run_cons, run_cons]
      cases step s e with
      | none => rfl
      | some t => exact ih t

/-- What every step keeps holds of every state reached. -/
theorem run_invariant {Inv : σ → Prop}
    (hstep : ∀ s e t, Inv s → step s e = some t → Inv t) {es : List ε} {s t : σ} (hs : Inv s)
    (h : run step es s = some t) : Inv t := by
  induction es generalizing s with
  | nil =>
      cases h
      exact hs
  | cons e es ih =>
      obtain ⟨u, hu, hut⟩ := run_cons_eq_some.mp h
      exact ih (hstep s e u hs hu) hut

/-- A condition on the actions alone. -/
theorem allSteps_of_forall {kind : ε → Prop} {es : List ε} {s : σ} (h : ∀ e ∈ es, kind e) :
    AllSteps step (fun _ e => kind e) es s := by
  induction es generalizing s with
  | nil => trivial
  | cons e es ih =>
      obtain ⟨he, hes⟩ := List.forall_mem_cons.mp h
      exact ⟨he, fun t _ => ih hes⟩

/-- A run takes at most as many steps that lower a measure as the measure says. -/
theorem run_length_le {kind : ε → Prop} {measure : σ → Nat}
    (hstep : ∀ s e t, kind e → step s e = some t → measure t < measure s) {es : List ε} {s t : σ}
    (hes : ∀ e ∈ es, kind e) (h : run step es s = some t) : es.length + measure t ≤ measure s := by
  induction es generalizing s with
  | nil =>
      cases h
      exact Nat.le_of_eq (Nat.zero_add _)
  | cons e es ih =>
      obtain ⟨he, hes⟩ := List.forall_mem_cons.mp hes
      obtain ⟨u, hu, hut⟩ := run_cons_eq_some.mp h
      have hfirst := hstep s e u he hu
      have hrest := ih hes hut
      rw [List.length_cons]
      omega

/-- What every step that meets `ok` keeps holds of every state of a run of such steps. -/
theorem run_invariant_of_allSteps {ok : σ → ε → Prop} {Inv : σ → Prop}
    (hstep : ∀ s e t, Inv s → ok s e → step s e = some t → Inv t) {es : List ε} {s t : σ}
    (hs : Inv s) (hok : AllSteps step ok es s) (h : run step es s = some t) : Inv t := by
  induction es generalizing s with
  | nil =>
      cases h
      exact hs
  | cons e es ih =>
      obtain ⟨u, hu, hut⟩ := run_cons_eq_some.mp h
      exact ih (hstep s e u hs hok.1 hu) (hok.2 u hu) hut

/-- Take an invariant of the steps that meet `ok`. A run of such steps meets every condition that
the invariant and `ok` imply. -/
theorem allSteps_of_invariant {ok ok' : σ → ε → Prop} {Inv : σ → Prop}
    (hstep : ∀ s e t, Inv s → ok s e → step s e = some t → Inv t)
    (himp : ∀ s e, Inv s → ok s e → ok' s e) {es : List ε} {s : σ} (hs : Inv s)
    (hok : AllSteps step ok es s) : AllSteps step ok' es s := by
  induction es generalizing s with
  | nil => trivial
  | cons e es ih =>
      exact ⟨himp s e hs hok.1, fun t ht => ih (hstep s e t hs hok.1 ht) (hok.2 t ht)⟩

/-- Every step of a run meets what an invariant implies. -/
theorem allSteps_of_kept {ok : σ → ε → Prop} {Inv : σ → Prop}
    (hstep : ∀ s e t, Inv s → step s e = some t → Inv t) (himp : ∀ s e, Inv s → ok s e)
    {es : List ε} {s : σ} (hs : Inv s) : AllSteps step ok es s := by
  induction es generalizing s with
  | nil => trivial
  | cons e es ih => exact ⟨himp s e hs, fun t ht => ih (hstep s e t hs ht)⟩

/-- Two conditions that agree wherever an invariant holds are met by the same runs. -/
theorem allSteps_congr {ok ok' : σ → ε → Prop} {Inv : σ → Prop}
    (hstep : ∀ s e t, Inv s → step s e = some t → Inv t)
    (hok : ∀ s e, Inv s → (ok s e ↔ ok' s e)) {es : List ε} {s : σ} (hs : Inv s) :
    AllSteps step ok es s ↔ AllSteps step ok' es s := by
  induction es generalizing s with
  | nil => exact Iff.rfl
  | cons e es ih =>
      unfold AllSteps
      rw [hok s e hs]
      exact and_congr_right fun _ => forall₂_congr fun t ht => ih (hstep s e t hs ht)

/-- Take a property of states that a step keeps exactly if it meets `ok`. Then a run from a state
with this property stays in such states exactly if all steps it takes meet `ok`. -/
theorem allSteps_kept_iff {ok : σ → ε → Prop} {P : σ → Prop}
    (hstep : ∀ s e t, P s → step s e = some t → (P t ↔ ok s e)) {es : List ε} {s : σ} (hs : P s) :
    AllSteps step (fun s e => ∀ t, step s e = some t → P t) es s ↔
      AllSteps step (fun s e => ∀ t, step s e = some t → ok s e) es s := by
  induction es generalizing s with
  | nil => exact Iff.rfl
  | cons e es ih =>
      constructor
      · intro h
        refine ⟨fun t ht => (hstep s e t hs ht).mp (h.1 t ht), fun t ht => ?_⟩
        exact (ih (h.1 t ht)).mp (h.2 t ht)
      · intro h
        have hP : ∀ t, step s e = some t → P t := fun t ht => (hstep s e t hs ht).mpr (h.1 t ht)
        exact ⟨hP, fun t ht => (ih (hP t ht)).mpr (h.2 t ht)⟩

/-- The same where every action is possible. -/
theorem allSteps_next_iff {ok : σ → ε → Prop} {P : σ → Prop}
    (hstep : ∀ s e t, P s → step s e = some t → (P t ↔ ok s e))
    (htotal : ∀ s e, ∃ t, step s e = some t) {es : List ε} {s : σ} (hs : P s) :
    AllSteps step (fun s e => ∀ t, step s e = some t → P t) es s ↔ AllSteps step ok es s := by
  refine (allSteps_kept_iff hstep hs).trans ?_
  have hany : ∀ s e t, True → step s e = some t → True := fun _ _ _ _ _ => trivial
  refine allSteps_congr hany (fun s e _ => ?_) trivial
  obtain ⟨t, ht⟩ := htotal s e
  exact ⟨fun h => h t ht, fun h _ _ => h⟩

/-- Take a property of states. A step from such a state leads to one exactly if it meets `ok`. Then
all steps of a run are possible and stay in such states exactly if they meet `ok`. -/
theorem allSteps_stays_iff {ok : σ → ε → Prop} {P : σ → Prop}
    (hstep : ∀ s e, P s → ((∃ t, step s e = some t ∧ P t) ↔ ok s e)) {es : List ε} {s : σ}
    (hs : P s) :
    AllSteps step (fun s e => ∃ t, step s e = some t ∧ P t) es s ↔ AllSteps step ok es s := by
  induction es generalizing s with
  | nil => exact Iff.rfl
  | cons e es ih =>
      unfold AllSteps
      rw [← hstep s e hs]
      refine and_congr_right fun ⟨u, hu, hPu⟩ => forall₂_congr fun t ht => ih ?_
      obtain rfl := Option.some.inj (hu.symm.trans ht)
      exact hPu

/-- A system whose states have further components: if its steps are those of `step` on the part
`part`, then a condition on this part is met by the same runs. -/
theorem allSteps_ghost {τ : Type} {step' : τ → ε → Option τ} (part : τ → σ)
    (hpart : ∀ p e, (step' p e).map part = step (part p) e) {ok : σ → ε → Prop} {es : List ε}
    {p : τ} : AllSteps step ok es (part p) ↔ AllSteps step' (fun q e => ok (part q) e) es p := by
  induction es generalizing p with
  | nil => exact Iff.rfl
  | cons e es ih =>
      refine and_congr_right fun _ => ?_
      constructor
      · intro h q hq
        exact ih.mp (h (part q) (by rw [← hpart, hq]; rfl))
      · intro h t ht
        rw [← hpart] at ht
        obtain ⟨q, hq, rfl⟩ := Option.map_eq_some_iff.mp ht
        exact ih.mpr (h q hq)

/-- A loop each of whose passes is a run of actions of one kind is such a run itself. -/
theorem run_of_whileFuel {ρ : Type} {cond : ρ → Bool} {body : ρ → ρ} (embed : ρ → σ)
    (kind : ε → Prop)
    (hpass : ∀ r, cond r = true →
      ∃ es, (∀ e ∈ es, kind e) ∧ run step es (embed r) = some (embed (body r)))
    {n : Nat} {r u : ρ} (h : whileFuel cond body n r = some u) :
    ∃ es, (∀ e ∈ es, kind e) ∧ run step es (embed r) = some (embed u) := by
  induction n generalizing r with
  | zero =>
      cases hc : cond r with
      | true => simp [whileFuel, hc] at h
      | false =>
          rw [whileFuel_stop _ hc] at h
          cases h
          exact ⟨[], by simp, rfl⟩
  | succ n ih =>
      cases hc : cond r with
      | true =>
          rw [whileFuel_pass _ hc] at h
          obtain ⟨es, hes, hrun⟩ := hpass r hc
          obtain ⟨fs, hfs, hrun'⟩ := ih h
          refine ⟨es ++ fs, fun e he => (List.mem_append.mp he).elim (hes e) (hfs e), ?_⟩
          rw [run_append, hrun]
          exact hrun'
      | false =>
          rw [whileFuel_stop _ hc] at h
          cases h
          exact ⟨[], by simp, rfl⟩

end

end Monitoring.Lib
