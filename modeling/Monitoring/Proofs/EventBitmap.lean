import Monitoring.Client.Gather

/-!
# `Monitoring.Proofs.EventBitmap`: the array behind CURRENT_EVENT_BLOCK

`get_current_event` prints the words that CURRENT_EVENT_BLOCK points to, as many as PROGRAM_COUNT
asks for at that moment. The pointer is set by the polls of a cycle and never reset, so behind the
end of the cycle it points to an array that has been deleted. And a call home can raise
PROGRAM_COUNT while the array keeps the length it was allocated with.

`Cycle` is a ghost next to the state: whether the running cycle has published its array, and the
PROGRAM_COUNT it was allocated for. `Tracks` connects it with the state. `readsLive_iff` says in
these terms which requests read only words that exist.
-/

set_option autoImplicit false

namespace Monitoring.Client

open Monitoring.Lib

/-- A request reads only words of an array that is allocated and not deleted. `get_current_event`
prints one word for each place it reads; a division by zero ends the process before. -/
def ReadsLive (s : GatherState) : ClientEvent → Prop
  | .request _ outside =>
      s.eventSize ≠ 0 → ∀ b ∈ s.requestFrame outside, ∀ i < b.words.length,
        s.currentEventBlock = .live ∧ i < s.blocks.length
  | _ => True

instance (s : GatherState) : (e : ClientEvent) → Decidable (ReadsLive s e)
  | .request _ _ => inferInstanceAs (Decidable (_ → _))
  | .elapse _ => isTrue trivial
  | .gather _ => isTrue trivial
  | .callHome _ => isTrue trivial

/-! ### The cycle -/

/-- The ghost. `polled` says whether a poll of the running cycle has assigned the pointer, and
`sized` is the PROGRAM_COUNT for which the array was allocated. -/
structure Cycle where
  polled : Bool
  sized : Int
deriving DecidableEq, Repr

/-- The ghost after the event, which led from `s` to `t`. -/
def Cycle.next (c : Cycle) (s : GatherState) (e : ClientEvent) (t : GatherState) : Cycle :=
  match e with
  | .gather _ =>
      match s.pc with
      | .setup => ⟨false, t.programCount⟩
      | .poll _ j => if j < s.blocks.length then { c with polled := true } else c
      | .delete _ => { c with polled := false }
      | _ => c
  | _ => c

/-- A step of the client, and of the ghost. -/
def cycleStep (p : GatherState × Cycle) (e : ClientEvent) : Option (GatherState × Cycle) :=
  (clientStep p.1 e).map fun t => (t, p.2.next p.1 e t)

/-- A request that has words to read comes after the first poll of a cycle and before the end of
it, and PROGRAM_COUNT asks for no more blocks than it did when the cycle began. -/
def AsksInTime (p : GatherState × Cycle) : ClientEvent → Prop
  | .request _ _ =>
      p.1.eventSize ≠ 0 → p.1.loggedIn = true → p.1.events = [] →
        p.1.currentEventBlock ≠ .null → 0 < blockCount p.1.programCount p.1.eventSize →
        p.2.polled = true ∧
          blockCount p.1.programCount p.1.eventSize ≤ blockCount p.2.sized p.1.eventSize
  | _ => True

/-- `gather_data` is between the allocation of the array and its deletion. -/
def GatherPc.holdsArray : GatherPc → Bool
  | .script | .login | .setup | .store _ | .logout | .cleanup => false
  | .start | .test _ | .mark _ | .poll _ _ | .wait _ | .asleep _ _ | .build | .delete _ => true

/-- The ghost describes the state: the pointer points to the array exactly after a poll of the
running cycle, and the array has the length it was allocated with. -/
structure Tracks (p : GatherState × Cycle) : Prop where
  live : p.1.currentEventBlock = .live ↔ p.2.polled = true
  held : p.2.polled = true → p.1.pc.holdsArray = true
  length : p.1.blocks.length = (blockCount p.2.sized p.1.eventSize).toNat

section
variable {s t : GatherState} {c : Cycle}

/-- What a statement of `gather_data` does to the array, the pointer and the ghost: nothing, or it
allocates the array, publishes it, or deletes it. EVENTSIZE stays. -/
theorem gatherStep_array {input : GatherInput} (h : gatherStep input s = some t) (c : Cycle) :
    t.eventSize = s.eventSize ∧
    ((c.next s (.gather input) t = c ∧ t.blocks = s.blocks ∧
        t.currentEventBlock = s.currentEventBlock ∧
        (s.pc.holdsArray = true → t.pc.holdsArray = true)) ∨
      (c.next s (.gather input) t = ⟨false, t.programCount⟩ ∧ s.pc.holdsArray = false ∧
        t.blocks.length = (blockCount t.programCount s.eventSize).toNat ∧
        t.currentEventBlock = s.currentEventBlock) ∨
      (c.next s (.gather input) t = { c with polled := true } ∧ t.pc.holdsArray = true ∧
        t.blocks.length = s.blocks.length ∧ t.currentEventBlock = .live) ∨
      (c.next s (.gather input) t = { c with polled := false } ∧ t.blocks = s.blocks ∧
        t.currentEventBlock ≠ .live)) := by
  unfold gatherStep at h
  unfold Cycle.next
  cases hpc : s.pc with
  | script | login | store line | logout | cleanup =>
      rw [hpc] at h
      cases h
      exact ⟨rfl, Or.inl ⟨rfl, rfl, rfl, fun h => by cases h⟩⟩
  | start | mark u =>
      rw [hpc] at h
      cases h
      exact ⟨rfl, Or.inl ⟨rfl, rfl, rfl, fun _ => rfl⟩⟩
  | test u | wait u =>
      rw [hpc] at h
      cases h
      refine ⟨rfl, Or.inl ⟨rfl, rfl, rfl, fun _ => ?_⟩⟩
      dsimp only
      split <;> rfl
  | asleep u wakes =>
      rw [hpc] at h
      obtain ⟨-, h⟩ := Option.ite_none_right_eq_some.mp h
      cases h
      exact ⟨rfl, Or.inl ⟨rfl, rfl, rfl, fun _ => rfl⟩⟩
  | build =>
      rw [hpc] at h
      dsimp only at h
      split at h <;> (cases h; exact ⟨rfl, Or.inl ⟨rfl, rfl, rfl, fun _ => rfl⟩⟩)
  | setup =>
      rw [hpc] at h
      obtain ⟨-, h⟩ := Option.ite_none_left_eq_some.mp h
      cases h
      exact ⟨rfl, Or.inr (Or.inl ⟨rfl, rfl, List.length_replicate, rfl⟩)⟩
  | poll u j =>
      rw [hpc] at h
      dsimp only at h ⊢
      by_cases hj : j < s.blocks.length
      · rw [if_pos hj] at h ⊢
        cases h
        exact ⟨rfl, Or.inr (Or.inr (Or.inl ⟨rfl, rfl, List.length_modify _ _ _, rfl⟩))⟩
      · rw [if_neg hj] at h ⊢
        cases h
        exact ⟨rfl, Or.inl ⟨rfl, rfl, rfl, fun _ => rfl⟩⟩
  | delete line =>
      rw [hpc] at h
      cases h
      refine ⟨rfl, Or.inr (Or.inr (Or.inr ⟨rfl, rfl, ?_⟩))⟩
      dsimp only
      split
      · exact EventBlock.noConfusion
      · assumption

/-- A step that leaves the array, the pointer and the ghost alone. -/
theorem Tracks.of_eq (hs : Tracks (s, c)) (hblock : t.currentEventBlock = s.currentEventBlock)
    (hblocks : t.blocks = s.blocks) (hsize : t.eventSize = s.eventSize)
    (hpc : s.pc.holdsArray = true → t.pc.holdsArray = true) : Tracks (t, c) where
  live := by
    rw [hblock]
    exact hs.live
  held := fun h => hpc (hs.held h)
  length := by
    rw [hblocks, hsize]
    exact hs.length

theorem tracks_gather {input : GatherInput} (hs : Tracks (s, c))
    (h : gatherStep input s = some t) : Tracks (t, c.next s (.gather input) t) := by
  obtain ⟨hsize, ⟨hnext, hblocks, hblock, hpc⟩ | ⟨hnext, hpc, hlength, hblock⟩ |
    ⟨hnext, hpc, hlength, hblock⟩ | ⟨hnext, hblocks, hblock⟩⟩ := gatherStep_array h c
  · rw [hnext]
    exact hs.of_eq hblock hblocks hsize hpc
  · -- a new array, and the pointer does not point to it yet
    have hpolled : c.polled ≠ true := by
      intro hpolled
      have hheld := hs.held hpolled
      rw [hpc] at hheld
      cases hheld
    rw [hnext]
    refine ⟨iff_of_false ?_ Bool.false_ne_true, fun h => absurd h Bool.false_ne_true, ?_⟩
    · rw [hblock]
      exact fun hlive => hpolled (hs.live.mp hlive)
    · rw [hsize]
      exact hlength
  · rw [hnext]
    refine ⟨iff_of_true hblock rfl, fun _ => hpc, ?_⟩
    rw [hsize]
    exact hlength.trans hs.length
  · rw [hnext]
    refine ⟨iff_of_false hblock Bool.false_ne_true, fun h => absurd h Bool.false_ne_true, ?_⟩
    rw [hblocks, hsize]
    exact hs.length

/-- A request leaves the array alone. -/
theorem requestStep_array {outcomes : Nat → WriteOutcome} {outside : Nat → UInt32}
    (h : requestStep outcomes outside s = some t) :
    t.pc = s.pc ∧ t.currentEventBlock = s.currentEventBlock ∧ t.blocks = s.blocks ∧
      t.eventSize = s.eventSize := by
  obtain ⟨q, -, rfl⟩ := requestStep_eq h
  exact ⟨rfl, rfl, rfl, rfl⟩

end

/-- The step lemma. -/
theorem tracks_step (p : GatherState × Cycle) (e : ClientEvent) (q : GatherState × Cycle)
    (hp : Tracks p) (h : cycleStep p e = some q) : Tracks q := by
  obtain ⟨t, ht, rfl⟩ := Option.map_eq_some_iff.mp h
  cases e with
  | elapse seconds | callHome programCount =>
      cases ht
      exact hp.of_eq rfl rfl rfl id
  | gather input => exact tracks_gather hp ht
  | request outcomes outside =>
      obtain ⟨hpc, hblock, hblocks, hsize⟩ := requestStep_array ht
      exact hp.of_eq hblock hblocks hsize fun h => by rw [hpc]; exact h

theorem tracks_begin (clock eventSize programCount : Int) :
    Tracks (GatherState.begin clock eventSize programCount, ⟨false, 0⟩) where
  live := iff_of_false (fun h => by cases h) Bool.false_ne_true
  held := fun h => absurd h Bool.false_ne_true
  length := by simp [GatherState.begin, blockCount]

/-! ### Which requests are safe -/

/-- When a request builds a frame. -/
theorem exists_requestFrame {s : GatherState} {outside : Nat → UInt32} :
    (∃ b, s.requestFrame outside = some b) ↔
      s.loggedIn = true ∧ s.events = [] ∧ s.currentEventBlock ≠ .null := by
  unfold GatherState.requestFrame GatherState.currentFrame
  by_cases hasks : s.loggedIn = true ∧ s.events = []
  · rw [if_pos hasks]
    by_cases hnull : s.currentEventBlock = .null
    · simp [hnull]
    · simp [hnull, hasks]
  · rw [if_neg hasks]
    refine iff_of_false (fun ⟨b, hb⟩ => by cases hb) fun h => hasks ⟨h.1, h.2.1⟩

/-- The frame shows as many words as PROGRAM_COUNT asks for. -/
theorem requestFrame_length {s : GatherState} {outside : Nat → UInt32} {b : BuiltFrame}
    (h : s.requestFrame outside = some b) :
    b.words.length = (blockCount s.programCount s.eventSize).toNat := by
  unfold GatherState.requestFrame GatherState.currentFrame at h
  split at h
  · split at h
    · cases h
    · cases h
      simp [GatherState.currentWords]
  · cases h

/-- Where the ghost describes the state, the two conditions agree. -/
theorem readsLive_iff {p : GatherState × Cycle} (hp : Tracks p) (e : ClientEvent) :
    ReadsLive p.1 e ↔ AsksInTime p e := by
  cases e with
  | elapse _ | gather _ | callHome _ => exact Iff.rfl
  | request outcomes outside =>
      have hlength := hp.length
      constructor
      · intro h hsize hlogged hevents hnull hpos
        obtain ⟨b, hb⟩ : ∃ b, p.1.requestFrame outside = some b :=
          exists_requestFrame.mpr ⟨hlogged, hevents, hnull⟩
        have hwords := requestFrame_length hb
        -- the last word that is read
        obtain ⟨hlive, hlt⟩ := h hsize b hb (b.words.length - 1) (by omega)
        exact ⟨hp.live.mp hlive, by omega⟩
      · intro h hsize b hb i hi
        obtain ⟨hlogged, hevents, hnull⟩ := exists_requestFrame.mp ⟨b, hb⟩
        have hwords := requestFrame_length hb
        obtain ⟨hpolled, hle⟩ := h hsize hlogged hevents hnull (by omega)
        exact ⟨hp.live.mpr hpolled, by omega⟩

/-- Every request of a run reads only words that exist, exactly if every request comes in time. -/
theorem readsLive_run_iff (clock eventSize programCount : Int) (es : List ClientEvent) :
    AllSteps clientStep ReadsLive es (GatherState.begin clock eventSize programCount) ↔
      AllSteps cycleStep AsksInTime es
        (GatherState.begin clock eventSize programCount, ⟨false, 0⟩) := by
  have hpart : ∀ p e, (cycleStep p e).map Prod.fst = clientStep p.1 e := by
    intro p e
    show ((clientStep p.1 e).map fun t => (t, _)).map Prod.fst = clientStep p.1 e
    rw [Option.map_map]
    exact Option.map_id_apply
  refine (allSteps_ghost (p := (GatherState.begin clock eventSize programCount, ⟨false, 0⟩))
    Prod.fst hpart).trans ?_
  exact allSteps_congr tracks_step (fun p e hp => readsLive_iff hp e) (tracks_begin _ _ _)

/-- A cycle of `ann` ends, and a request comes before the frame is pushed. -/
def askedAtTheEnd : List ClientEvent :=
  let input : GatherInput := ⟨[⟨[ch 'a', ch 'n', ch 'n'], true⟩], 1, 1⟩
  List.replicate 9 (.gather input) ++ [.elapse 60] ++ List.replicate 3 (.gather input) ++
    [.request (fun _ => ⟨100, 0⟩) fun _ => 0]

/-- The request reads the array that has just been deleted. -/
theorem readsLive_run_fails :
    ¬ AllSteps clientStep ReadsLive askedAtTheEnd (GatherState.begin 0 32 1) := by
  decide

end Monitoring.Client
