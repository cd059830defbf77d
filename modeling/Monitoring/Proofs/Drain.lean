import Monitoring.Client.Drain

/-!
# `Monitoring.Proofs.Drain`: which frames survive a '2' request

`drain_eq` is the loop: it takes the frames of EVENTS from the back, and the `k`-th frame that is
not empty goes into the `k`-th write. So a pending frame is gone after the answer unless that one
write took all of it, whatever the error codes say: `kept_iff`, frame by frame.
`answerRequest_keeps_iff` is the same for the whole list.
-/

set_option autoImplicit false

namespace Monitoring.Client

open Monitoring.Lib

/-! ### The loop -/

/-- The writes for the frames `ls`, the first of them being write number `n`. -/
def writesFrom (outcomes : Nat → WriteOutcome) (n : Nat) (ls : List Bytes) : List Sent :=
  (ls.zipIdx n).map fun x => ⟨x.1, cstr x.1, outcomes x.2⟩

/-- The frames that `drain` writes, in its order. -/
def written (events : List Bytes) : List Bytes :=
  events.reverse.filter fun line => decide (0 < line.length)

/-- The last frame is written first. -/
theorem written_concat (ls : List Bytes) (line : Bytes) :
    written (ls ++ [line]) = written [line] ++ written ls := by
  unfold written
  rw [List.reverse_concat, ← List.singleton_append, List.filter_append, List.reverse_singleton]

section
variable (outcomes : Nat → WriteOutcome)

/-- A pass takes the last frame; an empty one is not written. -/
theorem drainPass_concat (p : Outbox) (ls : List Bytes) (line : Bytes)
    (h : p.events = ls ++ [line]) :
    drainPass outcomes p = { p with
      events := ls
      wire := p.wire ++ writesFrom outcomes p.wire.length (written [line]) } := by
  unfold drainPass written writesFrom
  rw [h, List.getLastD_concat, List.dropLast_concat]
  by_cases hline : 0 < line.length
  · simp [hline, Outbox.write]
  · simp [hline]

/-- The writes of a list are those of its first part and those of the rest. -/
theorem writesFrom_append (n : Nat) (ls ls' : List Bytes) :
    writesFrom outcomes n (ls ++ ls')
      = writesFrom outcomes n ls ++ writesFrom outcomes (n + ls.length) ls' := by
  unfold writesFrom
  rw [List.zipIdx_append, List.map_append, Nat.add_comm]

/-- Number `k` of the writes is the one for frame number `k`. -/
theorem mem_writesFrom {w : Sent} {ls : List Bytes} :
    w ∈ writesFrom outcomes 0 ls ↔
      ∃ k line, ls[k]? = some line ∧ w = ⟨line, cstr line, outcomes k⟩ := by
  unfold writesFrom
  rw [List.mem_map]
  constructor
  · rintro ⟨⟨line, k⟩, hmem, rfl⟩
    exact ⟨k, line, List.mem_zipIdx_iff_getElem?.mp hmem, rfl⟩
  · rintro ⟨k, line, hline, rfl⟩
    exact ⟨(line, k), List.mem_zipIdx_iff_getElem?.mpr hline, rfl⟩

/-- The loop ends with EVENTS empty; it has written the frames from the back. Induction on the
frames in the order in which they are taken. -/
theorem drain_eq (p : Outbox) :
    drain outcomes p = some { p with
      events := []
      wire := p.wire ++ writesFrom outcomes p.wire.length (written p.events) } := by
  obtain ⟨events, file, wire⟩ := p
  unfold drain
  induction events using List.reverseRecOn generalizing wire with
  | nil => simp [whileFuel, written, writesFrom]
  | append_singleton ls line ih =>
      -- one pass takes the last frame, and the fuel counts the frames
      rw [List.length_append, List.length_singleton, whileFuel_pass _ (by simp),
        drainPass_concat outcomes _ ls line rfl, ih, written_concat, writesFrom_append,
        List.length_append]
      simp [writesFrom, List.append_assoc]

end

/-! ### What the answer keeps -/

/-- The frame went out completely: it is empty, or the write for it was handed all of it and
reports so many bytes. -/
def WrittenWhole (wire : List Sent) (f : Bytes) : Prop :=
  f = [] ∨ ∃ w ∈ wire, w.line = f ∧ w.event = f ∧ f.length ≤ w.outcome.sent

instance (wire : List Sent) (f : Bytes) : Decidable (WrittenWhole wire f) :=
  inferInstanceAs (Decidable
    (f = [] ∨ ∃ w ∈ wire, w.line = f ∧ w.event = f ∧ f.length ≤ w.outcome.sent))

section
variable (v : Version) (req : Request) (events : List Bytes) (eventFile : Option Bytes)

/-- After the answer the frame is in EVENTS or was written completely. -/
def Kept (f : Bytes) : Prop :=
  ∃ q, answerRequest v req events eventFile = some q ∧ (f ∈ q.events ∨ WrittenWhole q.wire f)

/-- EVENTS before the frames are sent; the Windows client has appended the stored lines. -/
def pendingEvents : List Bytes := (Outbox.accept v events eventFile).events

/-- The frames in the order of the writes. -/
def drainOrder : List Bytes := written (sortUnique (· ≤ ·) (pendingEvents v events eventFile))

/-- The write for the frame takes all of it, or there is none: the client is not logged in, or the
frame is empty. -/
def Carried (f : Bytes) : Prop :=
  req.loggedIn = false ∨ f = [] ∨
    (0 ∉ f ∧ ∀ k, (drainOrder v events eventFile)[k]? = some f →
      f.length ≤ (req.outcomes k).sent)

variable {v req events eventFile}

/-- The order of the writes has each pending frame once, without the empty one. -/
theorem mem_drainOrder {f : Bytes} :
    f ∈ drainOrder v events eventFile ↔ f ∈ pendingEvents v events eventFile ∧ f ≠ [] := by
  unfold drainOrder written
  simp [List.length_pos_iff]

theorem nodup_drainOrder : (drainOrder v events eventFile).Nodup :=
  ((List.nodup_reverse.mpr (nodup_sortUnique _ _)).filter _)

/-- EVENTS is only ever extended before the loop. -/
theorem mem_pendingEvents {f : Bytes} (h : f ∈ events) :
    f ∈ pendingEvents v events eventFile := by
  unfold pendingEvents Outbox.accept Outbox.loadStored
  split
  · exact h
  · split
    · exact h
    · exact List.mem_append_left _ h

/-- A new connection has no writes. -/
theorem accept_wire : (Outbox.accept v events eventFile).wire = [] := by
  unfold Outbox.accept Outbox.loadStored
  split
  · rfl
  · split <;> rfl

/-- The answer of a client that is logged in and has something to send: EVENTS is empty
afterwards, in both versions, and the writes are those of `drainOrder`. -/
theorem answerRequest_loggedIn (hlogged : req.loggedIn = true)
    (hpending : pendingEvents v events eventFile ≠ []) :
    ∃ q, answerRequest v req events eventFile = some q ∧ q.events = [] ∧
      q.wire = writesFrom req.outcomes 0 (drainOrder v events eventFile) := by
  -- sorting and `unique` keep an element, so the list is not empty in the test
  obtain ⟨f, hf⟩ := List.exists_mem_of_ne_nil _ hpending
  have hmem : f ∈ sortUnique (· ≤ ·) (Outbox.accept v events eventFile).events :=
    (mem_sortUnique _ _).mpr hf
  have hempty : (sortUnique (· ≤ ·) (Outbox.accept v events eventFile).events).isEmpty = false :=
    List.isEmpty_eq_false_iff.mpr (List.ne_nil_of_mem hmem)
  unfold answerRequest
  rw [if_pos hlogged]
  simp only [hempty, drain_eq, accept_wire, Bool.false_eq_true, if_false, Option.map_some,
    List.nil_append, List.length_nil]
  refine ⟨_, rfl, ?_, ?_⟩
  · cases v <;> rfl
  · cases v <;> rfl

/-- What the Linux client writes to a server that asks while somebody is logged in: frames of
EVENTS, or the one of `get_current_event` if there are none. -/
theorem answerRequest_linux {q : Outbox} (hlogged : req.loggedIn = true)
    (h : answerRequest .linux req events none = some q) :
    q.events = [] ∧ ∀ w ∈ q.wire, w.event = cstr w.line ∧
      (w.line ∈ events ∨ events = [] ∧ w.line = req.current) := by
  cases events with
  | nil =>
      have hanswer : answerRequest .linux req [] none
          = some ⟨[], none, [⟨req.current, cstr req.current, req.outcomes 0⟩]⟩ := by
        unfold answerRequest
        rw [if_pos hlogged]
        rfl
      rw [hanswer] at h
      cases h
      refine ⟨rfl, fun w hw => ?_⟩
      obtain rfl := List.mem_singleton.mp hw
      exact ⟨rfl, Or.inr ⟨rfl, rfl⟩⟩
  | cons f fs =>
      have hpending : pendingEvents .linux (f :: fs) none ≠ [] := List.cons_ne_nil f fs
      obtain ⟨q', hq', hevents, hwire⟩ := answerRequest_loggedIn hlogged hpending
      rw [h] at hq'
      cases hq'
      refine ⟨hevents, fun w hw => ?_⟩
      rw [hwire] at hw
      obtain ⟨k, line, hline, rfl⟩ := (mem_writesFrom _).mp hw
      exact ⟨rfl, Or.inl (mem_drainOrder.mp (List.mem_of_getElem? hline)).1⟩

/-- Frame by frame: a pending frame survives exactly if the one write for it takes all of it. -/
theorem kept_iff {f : Bytes} (hf : f ∈ pendingEvents v events eventFile)
    (hloggedOut : req.loggedIn = false → f ∈ events) :
    Kept v req events eventFile f ↔ Carried v req events eventFile f := by
  cases hlogged : req.loggedIn with
  | false =>
      refine ⟨fun _ => Or.inl hlogged, fun _ => ?_⟩
      refine ⟨_, by unfold answerRequest; rw [hlogged]; rfl, Or.inl (hloggedOut hlogged)⟩
  | true =>
      obtain ⟨q, hq, hevents, hwire⟩ := answerRequest_loggedIn hlogged (List.ne_nil_of_mem hf)
      unfold Kept Carried
      rw [hq, hlogged]
      simp only [Option.some.injEq, exists_eq_left', hevents, List.not_mem_nil, false_or,
        Bool.true_eq_false]
      unfold WrittenWhole
      by_cases hnil : f = []
      · simp [hnil]
      · simp only [hnil, false_or, hwire, mem_writesFrom]
        constructor
        · rintro ⟨w, ⟨k, line, hline, rfl⟩, rfl, hevent, hsent⟩
          refine ⟨cstr_eq_self_iff.mp hevent, fun k' hk' => ?_⟩
          -- `unique` leaves the frame at one place, so there is one write for it
          obtain ⟨hlt, -⟩ := List.getElem?_eq_some_iff.mp hline
          obtain rfl := (List.getElem?_inj hlt nodup_drainOrder).mp (hline.trans hk'.symm)
          exact hsent
        · rintro ⟨hnul, hsent⟩
          obtain ⟨k, hk⟩ := List.mem_iff_getElem?.mp (mem_drainOrder.mpr ⟨hf, hnil⟩)
          exact ⟨_, ⟨k, f, hk, rfl⟩, rfl, cstr_eq_self hnul, hsent k hk⟩

end

/-- Both clients, any list EVENTS and any outcomes of the writes: no pending frame is lost
exactly if each of them is carried by its write. -/
theorem answerRequest_keeps_iff (v : Version) (req : Request) (events : List Bytes)
    (eventFile : Option Bytes) :
    (∀ f ∈ events, Kept v req events eventFile f) ↔
      ∀ f ∈ events, Carried v req events eventFile f :=
  forall₂_congr fun _ hf => kept_iff (mem_pendingEvents hf) fun _ => hf

/-- A request whose only write fails. -/
def failingRequest : Request := ⟨true, [], fun _ => ⟨0, 104⟩⟩

/-- The only pending frame of either client is lost when its write fails. -/
theorem answerRequest_keeps_fails :
    (¬ ∀ f ∈ [[ch '2']], Kept .linux failingRequest [[ch '2']] none f) ∧
    (¬ ∀ f ∈ [[ch '2']], Kept .windows failingRequest [[ch '2']] none f) := by
  have hlost : ∀ v, ¬ Carried v failingRequest [[ch '2']] none [ch '2'] := by
    rintro v (h | h | ⟨-, hsent⟩)
    · exact Bool.noConfusion h
    · exact List.cons_ne_nil _ _ h
    · exact absurd (hsent 0 (by cases v <;> decide)) (by decide)
  constructor
  · intro h
    exact hlost _ ((kept_iff (mem_pendingEvents (by simp)) (by simp)).mp (h [ch '2'] (by simp)))
  · intro h
    exact hlost _ ((kept_iff (mem_pendingEvents (by simp)) (by simp)).mp (h [ch '2'] (by simp)))

end Monitoring.Client
