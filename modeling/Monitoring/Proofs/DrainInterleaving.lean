import Monitoring.Proofs.Drain

/-!
# `Monitoring.Proofs.DrainInterleaving`: pushes between the operations of the drain

`gather_data` may push a frame between any two operations of `listen_thread`. `DrainInv` is what
the drain relies on at each place: at `pop_back` the last frame is still the one that `back`
returned, and at `clear` the list is still empty. A push at one of these two places breaks it,
and no other does. So as long as no push falls there, and the writes succeed, every frame ever
pushed is in EVENTS, on the wire, or in the hand of `listen_thread` (`drainInv_step`, and
`pushed_survives` for whole runs).

`answerRequest_run` connects the two models of the drain: the answer of `answerRequest` is a run
of single operations without a push.
-/

set_option autoImplicit false

namespace Monitoring.Client

open Monitoring.Lib

/-! ### What a step may assume -/

/-- The socket takes everything it is handed. -/
def writeSucceeds (s : Shared) : Op → Bool
  | .push _ => true
  | .listen outcome current =>
      match s.pc with
      | .write line => decide ((cstr line).length ≤ outcome.sent)
      | .current => decide ((cstr current).length ≤ outcome.sent)
      | _ => true

/-- No push falls between `back` and `pop_back`, or between the last `empty` and `clear`. -/
def undisturbed (s : Shared) : Op → Bool
  | .push _ =>
      match s.pc with
      | .popBack _ => false
      | .clear => false
      | _ => true
  | .listen _ _ => true

/-- What holds between any two operations. -/
structure DrainInv (s : Shared) : Prop where
  nul : ∀ f ∈ s.box.events, 0 ∉ f
  inHand : ∀ line, s.pc = .write line → 0 ∉ line
  back : ∀ line, s.pc = .popBack line → s.box.events.getLastD [] = line
  empty : s.pc = .clear → s.box.events = []
  kept : ∀ f ∈ s.pushed, f ∈ s.box.events ∨ WrittenWhole s.box.wire f ∨ s.pc = .write f

/-- More writes do not undo one. -/
theorem WrittenWhole.write {p : Outbox} {f line : Bytes} {outcome : WriteOutcome}
    (h : WrittenWhole p.wire f) : WrittenWhole (p.write line outcome).wire f := by
  rcases h with rfl | ⟨w, hw, hwhole⟩
  · exact Or.inl rfl
  · exact Or.inr ⟨w, List.mem_append_left _ hw, hwhole⟩

theorem drainInv_start : DrainInv Shared.start where
  nul := by simp [Shared.start]
  inHand := by simp [Shared.start]
  back := by simp [Shared.start]
  empty := by simp [Shared.start]
  kept := by simp [Shared.start]

/-- A push at any other place. -/
theorem drainInv_push {s : Shared} (hs : DrainInv s) (f : GatheredFrame)
    (hquiet : undisturbed s (.push f) = true) :
    DrainInv { s with
      box := { s.box with events := s.box.events ++ [f.1] }
      pushed := s.pushed ++ [f.1] } where
  nul := by
    intro g hg
    rcases List.mem_append.mp hg with hg | hg
    · exact hs.nul g hg
    · rw [List.mem_singleton.mp hg]
      exact f.2
  inHand := hs.inHand
  back := fun line hline => by simp [undisturbed, show s.pc = .popBack line from hline] at hquiet
  empty := fun h => by simp [undisturbed, show s.pc = .clear from h] at hquiet
  kept := by
    intro g hg
    rcases List.mem_append.mp hg with hg | hg
    · rcases hs.kept g hg with h | h | h
      · exact Or.inl (List.mem_append_left _ h)
      · exact Or.inr (Or.inl h)
      · exact Or.inr (Or.inr h)
    · exact Or.inl (List.mem_append_right _ hg)

/-- A step that keeps the elements of EVENTS and has no frame in the hand. What it has to show is
what the next place relies on. -/
theorem DrainInv.move {s : Shared} (hs : DrainInv s) {pc : Pc} {events : List Bytes}
    (hfrom : ∀ line, s.pc ≠ .write line) (hmem : ∀ f, f ∈ events ↔ f ∈ s.box.events)
    (hwrite : ∀ line, pc ≠ .write line)
    (hback : ∀ line, pc = .popBack line → events.getLastD [] = line)
    (hclear : pc = .clear → events = []) :
    DrainInv { s with pc := pc, box := { s.box with events := events } } where
  nul := fun f hf => hs.nul f ((hmem f).mp hf)
  inHand := fun line hline => absurd hline (hwrite line)
  back := hback
  empty := hclear
  kept := by
    intro f hf
    rcases hs.kept f hf with h | h | h
    · exact Or.inl ((hmem f).mpr h)
    · exact Or.inr (Or.inl h)
    · exact absurd h (hfrom f)

/-- At `pop_back` the last frame is the one that `back` returned. -/
theorem DrainInv.last {s : Shared} (hs : DrainInv s) {line : Bytes}
    (hpc : s.pc = .popBack line) :
    s.box.events = [] ∧ line = [] ∨ ∃ ls, s.box.events = ls ++ [line] := by
  have hlast := hs.back line hpc
  obtain hnil | ⟨ls, last, hconcat⟩ := List.eq_nil_or_concat s.box.events
  · rw [hnil] at hlast
    exact Or.inl ⟨hnil, hlast.symm⟩
  · rw [hconcat, List.concat_eq_append, List.getLastD_concat] at hlast
    exact Or.inr ⟨ls, by rw [hconcat, List.concat_eq_append, hlast]⟩

/-- `pop_back` takes the frame that `back` returned. -/
theorem drainInv_popBack {s : Shared} (hs : DrainInv s) {line : Bytes}
    (hpc : s.pc = .popBack line) :
    DrainInv { s with
      pc := if 0 < line.length then .write line else .loopTest
      box := { s.box with events := s.box.events.dropLast } } := by
  have hsplit : ∀ f ∈ s.box.events, f ∈ s.box.events.dropLast ∨ f = line := by
    intro f hf
    obtain ⟨hnil, -⟩ | ⟨ls, hls⟩ := hs.last hpc
    · rw [hnil] at hf
      exact absurd hf List.not_mem_nil
    · rw [hls, List.dropLast_concat]
      simpa [hls] using hf
  -- the frame that was popped is in the hand now, or it was empty
  refine ⟨fun f hf => hs.nul f (List.dropLast_subset _ hf), ?_, ?_, ?_, ?_⟩
  · intro g hg
    split at hg
    · cases hg
      obtain ⟨-, rfl⟩ | ⟨ls, hls⟩ := hs.last hpc
      · exact List.not_mem_nil
      · exact hs.nul line (by simp [hls])
    · cases hg
  · intro g hg
    split at hg <;> cases hg
  · intro hg
    split at hg <;> cases hg
  · intro f hf
    rcases hs.kept f hf with h | h | h
    · rcases hsplit f h with h | rfl
      · exact Or.inl h
      · by_cases hpos : 0 < f.length
        · exact Or.inr (Or.inr (if_pos hpos))
        · exact Or.inr (Or.inl (Or.inl (List.length_eq_zero_iff.mp (by omega))))
    · exact Or.inr (Or.inl h)
    · rw [hpc] at h
      cases h

/-- The write of the frame in the hand. -/
theorem drainInv_write {s : Shared} (hs : DrainInv s) {line : Bytes} {outcome : WriteOutcome}
    (hpc : s.pc = .write line) (hsent : (cstr line).length ≤ outcome.sent) :
    DrainInv { s with pc := .loopTest, box := s.box.write line outcome } := by
  have hnul := hs.inHand line hpc
  refine ⟨hs.nul, by simp, by simp, by simp, fun f hf => ?_⟩
  rcases hs.kept f hf with h | h | h
  · exact Or.inl h
  · exact Or.inr (Or.inl h.write)
  -- the frame in the hand holds no NUL, so all of it is handed to the socket
  · obtain rfl : line = f := Pc.write.inj (hpc.symm.trans h)
    refine Or.inr (Or.inl (Or.inr ⟨⟨line, cstr line, outcome⟩, ?_, rfl, cstr_eq_self hnul, ?_⟩))
    · exact List.mem_append_right _ (List.mem_singleton_self _)
    · rwa [cstr_eq_self hnul] at hsent

/-- One operation of `listen_thread`, place by place. -/
theorem drainInv_listen {s : Shared} (hs : DrainInv s) {outcome : WriteOutcome}
    {current : Bytes} (hwrite : writeSucceeds s (.listen outcome current)) :
    DrainInv (listenStep outcome current s) := by
  obtain ⟨pc, box, pushed⟩ := s
  cases pc with
  | idle => exact hs.move (by simp) (fun _ => Iff.rfl) (by simp) (by simp) (by simp)
  | sort => exact hs.move (by simp) (by simp) (by simp) (by simp) (by simp)
  | unique => exact hs.move (by simp) (by simp) (by simp) (by simp) (by simp)
  | testEmpty =>
      -- both branches go to a place that relies on nothing
      refine hs.move (by simp) (fun _ => Iff.rfl) ?_ ?_ ?_ <;> (dsimp only; split <;> simp)
  | current =>
      refine ⟨hs.nul, by simp [listenStep], by simp [listenStep], by simp [listenStep], ?_⟩
      intro f hf
      rcases hs.kept f hf with h | h | h
      · exact Or.inl h
      · exact Or.inr (Or.inl h.write)
      · cases h
  | loopTest =>
      -- `clear` is reached only with an empty list
      refine hs.move (by simp) (fun _ => Iff.rfl) ?_ ?_ ?_
      · dsimp only
        split <;> simp
      · dsimp only
        split <;> simp
      · dsimp only
        split
        · exact fun _ => List.isEmpty_iff.mp ‹_›
        · simp
  | back =>
      refine hs.move (by simp) (fun _ => Iff.rfl) (by simp) ?_ (by simp)
      -- `back` returns the last frame, which is what `pop_back` relies on
      rintro line ⟨⟩
      rfl
  | popBack line => exact drainInv_popBack hs rfl
  | write line => exact drainInv_write hs rfl (of_decide_eq_true hwrite)
  | clear =>
      -- nothing is cleared, because no push came after the last test
      have hempty := hs.empty rfl
      refine hs.move (by simp) (fun f => ?_) (by simp) (by simp) (by simp)
      rw [hempty]

/-- One operation of either thread. -/
theorem drainInv_step {s t : Shared} {op : Op} (hs : DrainInv s) (hwrite : writeSucceeds s op)
    (hquiet : undisturbed s op) (h : sharedStep s op = some t) : DrainInv t := by
  cases op with
  | push f =>
      cases h
      exact drainInv_push hs f hquiet
  | listen outcome current =>
      cases h
      exact drainInv_listen hs hwrite

/-! ### Whole runs -/

/-- Every frame ever pushed is on the wire or in EVENTS. -/
def NothingLost (s : Shared) : Prop :=
  ∀ f ∈ s.pushed, f ∈ s.box.events ∨ WrittenWhole s.box.wire f

instance (s : Shared) : Decidable (NothingLost s) :=
  inferInstanceAs (Decidable (∀ f ∈ s.pushed, f ∈ s.box.events ∨ WrittenWhole s.box.wire f))

/-- Any number of pushes and requests, in any order. If all writes succeed, and no push falls
between `back` and `pop_back` or between the last `empty` and `clear`, then whenever a drain has
ended nothing is lost. -/
theorem pushed_survives {ops : List Op} {s : Shared}
    (hok : AllSteps sharedStep (fun s op => writeSucceeds s op ∧ undisturbed s op) ops .start)
    (h : run sharedStep ops .start = some s) (hidle : s.pc = .idle) : NothingLost s := by
  have hinv : DrainInv s := run_invariant_of_allSteps
    (fun _ _ _ hs hstep ht => drainInv_step hs hstep.1 hstep.2 ht) drainInv_start hok h
  intro f hf
  rcases hinv.kept f hf with h | h | h
  · exact Or.inl h
  · exact Or.inr h
  · rw [hidle] at h
    cases h

/-- An operation of `listen_thread` whose write, if it is one, takes up to 400 bytes. -/
def nextOp : Op := .listen ⟨400, 0⟩ []

/-- A push of a frame that is just `c`. -/
def pushOp (c : Char) (h : 0 ∉ [ch c]) : Op := .push ⟨[ch c], h⟩

/-- A run in which the second push falls between two drains. -/
def politeOps : List Op :=
  [pushOp 'a' (by decide)] ++ List.replicate 10 nextOp ++ [pushOp 'b' (by decide)]

theorem pushed_survives_polite :
    ∃ s, run sharedStep politeOps .start = some s ∧ s.pc = .idle ∧ NothingLost s :=
  ⟨_, rfl, by decide, @pushed_survives politeOps _ (by decide) rfl (by decide)⟩

/-- A run in which `b` is pushed between `back` and `pop_back`: `pop_back` removes `b`, and `a`
is sent twice. -/
def lostPushOps : List Op :=
  [pushOp 'a' (by decide)] ++ List.replicate 6 nextOp ++ [pushOp 'b' (by decide)]
    ++ List.replicate 8 nextOp

/-- The frame that the drain loses. -/
theorem pushed_survives_fails :
    AllSteps sharedStep (fun s op => writeSucceeds s op) lostPushOps .start ∧
    ∃ s, run sharedStep lostPushOps .start = some s ∧ s.pc = .idle ∧ ¬ NothingLost s :=
  ⟨by decide, _, rfl, by decide, by decide⟩

/-! ### The two models of the drain -/

/-- The operation belongs to `listen_thread`. -/
def Op.IsListen : Op → Prop
  | .push _ => False
  | .listen _ _ => True

/-- The operations of one request without a push, as a run. -/
theorem run_listen_cons (outcome : WriteOutcome) (current : Bytes) {s t : Shared}
    (h : ∃ ops, (∀ op ∈ ops, op.IsListen) ∧
      run sharedStep ops (listenStep outcome current s) = some t) :
    ∃ ops, (∀ op ∈ ops, op.IsListen) ∧ run sharedStep ops s = some t := by
  obtain ⟨ops, hops, hrun⟩ := h
  refine ⟨.listen outcome current :: ops, fun op hop => ?_, hrun⟩
  rcases List.mem_cons.mp hop with rfl | hop
  · trivial
  · exact hops op hop

/-- Runs of one request follow each other. -/
theorem run_listen_trans {s t u : Shared}
    (h : ∃ ops, (∀ op ∈ ops, op.IsListen) ∧ run sharedStep ops s = some t)
    (h' : ∃ ops, (∀ op ∈ ops, op.IsListen) ∧ run sharedStep ops t = some u) :
    ∃ ops, (∀ op ∈ ops, op.IsListen) ∧ run sharedStep ops s = some u := by
  obtain ⟨ops, hops, hrun⟩ := h
  obtain ⟨ops', hops', hrun'⟩ := h'
  refine ⟨ops ++ ops', fun op hop => (List.mem_append.mp hop).elim (hops op) (hops' op), ?_⟩
  rw [run_append, hrun]
  exact hrun'

/-- One pass of the loop is three or four operations. -/
theorem drainPass_run (outcomes : Nat → WriteOutcome) (current : Bytes) (pushed : List Bytes)
    {p : Outbox} (hne : (!p.events.isEmpty) = true) :
    ∃ ops, (∀ op ∈ ops, op.IsListen) ∧
      run sharedStep ops ⟨.loopTest, p, pushed⟩
        = some ⟨.loopTest, drainPass outcomes p, pushed⟩ := by
  have hempty : p.events.isEmpty = false := by simpa using hne
  have htest : listenStep (outcomes 0) current ⟨.loopTest, p, pushed⟩ = ⟨.back, p, pushed⟩ := by
    simp [listenStep, hempty]
  refine run_listen_cons (outcomes 0) current ?_
  rw [htest]
  -- `back`, then `pop_back`
  refine run_listen_cons (outcomes 0) current ?_
  refine run_listen_cons (outcomes 0) current ?_
  simp only [listenStep, drainPass]
  by_cases hline : 0 < (p.events.getLastD []).length
  · rw [if_pos hline, if_pos hline]
    exact run_listen_cons (outcomes p.wire.length) current
      ⟨[], by simp, rfl⟩
  · rw [if_neg hline, if_neg hline]
    exact ⟨[], by simp, rfl⟩

/-- The test in front of the loop, and the current event when there is nothing else. -/
theorem testEmpty_run (outcome : WriteOutcome) (current : Bytes) (pushed : List Bytes)
    (p : Outbox) :
    ∃ ops, (∀ op ∈ ops, op.IsListen) ∧
      run sharedStep ops ⟨.testEmpty, p, pushed⟩
        = some ⟨.loopTest, if p.events.isEmpty then p.write current outcome else p, pushed⟩ := by
  refine run_listen_cons outcome current ?_
  cases hempty : p.events.isEmpty with
  | true =>
      have htest : listenStep outcome current ⟨.testEmpty, p, pushed⟩ = ⟨.current, p, pushed⟩ := by
        simp [listenStep, hempty]
      rw [htest]
      exact run_listen_cons outcome current ⟨[], by simp, rfl⟩
  | false => exact ⟨[], by simp, by simp [listenStep, hempty]⟩

/-- The end of the loop, and `EVENTS.clear()`. -/
theorem clear_run (outcome : WriteOutcome) (current : Bytes) (pushed : List Bytes) {p : Outbox}
    (hempty : p.events.isEmpty = true) :
    ∃ ops, (∀ op ∈ ops, op.IsListen) ∧
      run sharedStep ops ⟨.loopTest, p, pushed⟩ = some ⟨.idle, Outbox.finish .linux p, pushed⟩ := by
  have htest : listenStep outcome current ⟨.loopTest, p, pushed⟩ = ⟨.clear, p, pushed⟩ := by
    simp [listenStep, hempty]
  refine run_listen_cons outcome current ?_
  rw [htest]
  exact run_listen_cons outcome current ⟨[], by simp, rfl⟩

/-- The answer to a request is a run of the single operations, without a push. -/
theorem answerRequest_run {req : Request} {events : List Bytes} {eventFile : Option Bytes}
    {q : Outbox} (hlogged : req.loggedIn = true)
    (h : answerRequest .linux req events eventFile = some q) (pushed : List Bytes) :
    ∃ ops, (∀ op ∈ ops, op.IsListen) ∧
      run sharedStep ops ⟨.idle, ⟨events, eventFile, []⟩, pushed⟩ = some ⟨.idle, q, pushed⟩ := by
  unfold answerRequest at h
  rw [if_pos hlogged, Option.map_eq_some_iff] at h
  obtain ⟨u, hloop, rfl⟩ := h
  have hend := whileFuel_exit hloop
  have hpasses := run_of_whileFuel (fun r => (⟨.loopTest, r, pushed⟩ : Shared)) Op.IsListen
    (fun r hr => drainPass_run req.outcomes req.current pushed hr) hloop
  -- the request, `sort` and `unique` come first
  refine run_listen_cons (req.outcomes 0) req.current ?_
  refine run_listen_cons (req.outcomes 0) req.current ?_
  refine run_listen_cons (req.outcomes 0) req.current ?_
  exact run_listen_trans (testEmpty_run (req.outcomes 0) req.current pushed _)
    (run_listen_trans hpasses (clear_run (req.outcomes 0) req.current pushed (by simpa using hend)))

end Monitoring.Client
