import Monitoring.Proofs.Gather
import Monitoring.Proofs.Timestamp

/-!
# `Monitoring.Proofs.MeasuredMinute`: the minute a frame is stamped with

A cycle of `gather_data` ends when 59 seconds are over and the wait for second 0 is, too. Only then
it builds its frame, and `get_rounded_timestamp` looks at the clock of that moment. So the stamp is
the minute in which the cycle has ended. The polls whose bits the frame shows were made before.

`Measured` is a ghost next to the state: the times of the polls of the running cycle, and the frames
that the cycles have built with the polls of each. The polls come in the order of the clock
(`Polled`), so it is enough to look at the first one: `frames_name_their_minute` says that a frame
names the minute it measured if no minute begins between the first poll and the call of
`build_event`.
-/

set_option autoImplicit false

namespace Monitoring.Client

open Monitoring.Lib

/-- The number in a frame: what the server makes of the ten characters. -/
def BuiltFrame.timestamp (b : BuiltFrame) : Int := u64 (atol (cstr b.stamp))

/-- The ghost: when the processes were polled for the words of this cycle, and the frames at the
end of a cycle with the polls that went into them. -/
structure Measured where
  polls : List Int
  frames : List (BuiltFrame × List Int)
deriving DecidableEq, Repr

/-- The ghost after the event. -/
def Measured.next (m : Measured) (s : GatherState) : ClientEvent → Measured
  | .gather _ =>
      match s.pc with
      | .setup => { m with polls := [] }
      | .poll _ j => if j < s.blocks.length then { m with polls := m.polls ++ [s.clock] } else m
      | .build => { m with frames := m.frames ++ s.finishedFrame.toList.map fun b => (b, m.polls) }
      | _ => m
  | _ => m

/-- A step of the client, and of the ghost. -/
def measuredStep (p : GatherState × Measured) (e : ClientEvent) : Option (GatherState × Measured) :=
  (clientStep p.1 e).map fun t => (t, p.2.next p.1 e)

/-- Every poll that went into a frame was made in the minute that the frame names. -/
def NamesMinute (p : GatherState × Measured) : Prop :=
  ∀ f ∈ p.2.frames, ∀ c ∈ f.2, f.1.timestamp ≤ c ∧ c < f.1.timestamp + 60

/-- When the cycle builds its frame, it is still the minute of the first poll, and the minute fits
an `int`. -/
def EndsInMinute (p : GatherState × Measured) : ClientEvent → Prop
  | .gather _ =>
      p.1.pc = .build → ∀ b ∈ p.1.finishedFrame, ∀ first ∈ p.2.polls.head?,
        first - tmSec first = b.clock - tmSec b.clock ∧
          0 ≤ b.clock - tmSec b.clock ∧ b.clock - tmSec b.clock < 2147483648
  | _ => True

instance (p : GatherState × Measured) : (e : ClientEvent) → Decidable (EndsInMinute p e)
  | .gather _ => inferInstanceAs (Decidable (_ → _))
  | .elapse _ | .request _ _ | .callHome _ => isTrue trivial

instance (p : GatherState × Measured) : Decidable (NamesMinute p) :=
  inferInstanceAs (Decidable (∀ f ∈ p.2.frames, ∀ c ∈ f.2, _ ∧ _))

/-! ### The order of the polls -/

/-- The polls of the cycle are over, and none was made before the first. -/
structure Polled (p : GatherState × Measured) : Prop where
  past : ∀ c ∈ p.2.polls, c ≤ p.1.clock
  first : ∀ first ∈ p.2.polls.head?, ∀ c ∈ p.2.polls, first ≤ c

section
variable {s t : GatherState} {m : Measured} {e : ClientEvent}

/-- A statement of `gather_data` takes no time. -/
theorem gatherStep_clock {input : GatherInput} (h : gatherStep input s = some t) :
    t.clock = s.clock := by
  unfold gatherStep at h
  cases hpc : s.pc with
  | script | login | start | test u | mark u | wait u | delete line | store line | logout
  | cleanup =>
      rw [hpc] at h
      cases h
      rfl
  | setup =>
      rw [hpc] at h
      obtain ⟨-, h⟩ := Option.ite_none_left_eq_some.mp h
      cases h
      rfl
  | poll u j =>
      rw [hpc] at h
      dsimp only at h
      split at h <;> cases h <;> rfl
  | asleep u wakes =>
      rw [hpc] at h
      obtain ⟨-, h⟩ := Option.ite_none_right_eq_some.mp h
      cases h
      rfl
  | build =>
      rw [hpc] at h
      dsimp only at h
      split at h <;> cases h <;> rfl

/-- Time does not run backwards. -/
theorem clientStep_clock (h : clientStep s e = some t) : s.clock ≤ t.clock := by
  cases e with
  | elapse seconds =>
      cases h
      exact Int.le_add_of_nonneg_right (Int.natCast_nonneg seconds)
  | gather input => exact (gatherStep_clock h).ge
  | request outcomes outside =>
      obtain ⟨q, -, rfl⟩ := requestStep_eq h
      exact Int.le_refl _
  | callHome n =>
      cases h
      exact Int.le_refl _

/-- An event makes no poll, forgets the polls at the start of a cycle, or makes one more. -/
theorem next_polls : (m.next s e).polls = m.polls ∨ (m.next s e).polls = [] ∨
    (m.next s e).polls = m.polls ++ [s.clock] := by
  cases e with
  | elapse | request | callHome => exact Or.inl rfl
  | gather input =>
      unfold Measured.next
      cases hpc : s.pc with
      | setup => exact Or.inr (Or.inl rfl)
      | poll u j =>
          dsimp only
          split
          · exact Or.inr (Or.inr rfl)
          · exact Or.inl rfl
      | _ => exact Or.inl rfl

theorem polled_step (hp : Polled (s, m)) (h : clientStep s e = some t) :
    Polled (t, m.next s e) := by
  have hclock := clientStep_clock h
  have hpast : ∀ c ∈ m.polls, c ≤ t.clock := fun c hc => (hp.past c hc).trans hclock
  rcases next_polls (s := s) (m := m) (e := e) with hpolls | hpolls | hpolls
  · exact ⟨by rwa [hpolls], by rw [hpolls]; exact hp.first⟩
  · exact ⟨by rw [hpolls]; simp, by rw [hpolls]; simp⟩
  · refine ⟨fun c hc => ?_, fun first hfirst c hc => ?_⟩
    · rw [hpolls] at hc
      rcases List.mem_append.mp hc with hc | hc
      · exact hpast c hc
      · rw [List.mem_singleton.mp hc]
        exact hclock
    · -- the new poll is the last one, and the first one if there was none
      rw [hpolls] at hfirst hc
      cases hold : m.polls with
      | nil =>
          rw [hold] at hfirst hc
          cases hfirst
          exact (List.mem_singleton.mp hc).ge
      | cons p ps =>
          have hhead : first ∈ m.polls.head? := by
            rw [hold] at hfirst ⊢
            exact hfirst
          rcases List.mem_append.mp hc with hc | hc
          · exact hp.first first hhead c hc
          · rw [List.mem_singleton.mp hc]
            exact hp.past first (List.mem_of_mem_head? hhead)

/-! ### The stamp -/

/-- The number in a frame is the minute in which it was built. -/
theorem timestamp_eq {b : BuiltFrame} (h0 : 0 ≤ b.clock - tmSec b.clock)
    (h : b.clock - tmSec b.clock < 2147483648) : b.timestamp = b.clock - tmSec b.clock := by
  have hvalue := atol_packed (n := (b.clock - tmSec b.clock).toNat) (by omega)
  unfold BuiltFrame.timestamp BuiltFrame.stamp
  rw [getRoundedTimestamp_of_fits h0 h, hvalue]
  omega

theorem finishedFrame_clock {b : BuiltFrame} (hb : b ∈ s.finishedFrame) : b.clock = s.clock := by
  obtain ⟨-, hb⟩ := Option.ite_none_right_eq_some.mp hb
  cases hb
  rfl

/-- The frames are the former ones and the one of the cycle that ends here. -/
theorem mem_next_frames {f : BuiltFrame × List Int} (hf : f ∈ (m.next s e).frames) :
    f ∈ m.frames ∨ ∃ input, e = .gather input ∧ s.pc = .build ∧ f.1 ∈ s.finishedFrame ∧
      f.2 = m.polls := by
  cases e with
  | elapse | request | callHome => exact Or.inl hf
  | gather input =>
      unfold Measured.next at hf
      cases hpc : s.pc with
      | build =>
          rw [hpc] at hf
          rcases List.mem_append.mp hf with hf | hf
          · exact Or.inl hf
          · obtain ⟨b, hb, rfl⟩ := List.mem_map.mp hf
            exact Or.inr ⟨input, rfl, rfl, Option.mem_toList.mp hb, rfl⟩
      | poll u j =>
          rw [hpc] at hf
          dsimp only at hf
          split at hf <;> exact Or.inl hf
      | _ =>
          rw [hpc] at hf
          exact Or.inl hf

theorem namesMinute_step (hp : Polled (s, m)) (hnames : NamesMinute (s, m))
    (hok : EndsInMinute (s, m) e) : NamesMinute (t, m.next s e) := by
  intro f hf c hc
  rcases mem_next_frames hf with hf | ⟨input, rfl, hpc, hframe, hpolls⟩
  · exact hnames f hf c hc
  · rw [hpolls] at hc
    obtain ⟨first, hfirst⟩ : ∃ first, m.polls.head? = some first := by
      cases hm : m.polls with
      | nil => exact absurd (hm ▸ hc) List.not_mem_nil
      | cons p ps => exact ⟨p, rfl⟩
    obtain ⟨hminute, h0, hfits⟩ := hok hpc f.1 hframe first hfirst
    have hstamp := timestamp_eq h0 hfits
    have hclock := finishedFrame_clock hframe
    -- the poll lies between the first one and the end of the cycle
    have hge : first ≤ c := hp.first first hfirst c hc
    have hle : c ≤ s.clock := hp.past c hc
    unfold tmSec at hminute hstamp
    omega

end

/-! ### Runs -/

/-- Nothing has been polled or built. -/
def Measured.begin : Measured := ⟨[], []⟩

/-- If every cycle builds its frame in the minute of its first poll, all frames name the minute they
have measured. -/
theorem frames_name_their_minute {clock eventSize programCount : Int} {es : List ClientEvent}
    {p : GatherState × Measured}
    (hok : AllSteps measuredStep EndsInMinute es
      (GatherState.begin clock eventSize programCount, Measured.begin))
    (h : run measuredStep es (GatherState.begin clock eventSize programCount, Measured.begin)
      = some p) : NamesMinute p := by
  have hinv : Polled p ∧ NamesMinute p := by
    have hstep : ∀ p e q, Polled p ∧ NamesMinute p → EndsInMinute p e →
        measuredStep p e = some q → Polled q ∧ NamesMinute q := by
      rintro ⟨s, m⟩ e q ⟨hpolled, hnames⟩ hok h
      obtain ⟨t, ht, rfl⟩ := Option.map_eq_some_iff.mp h
      exact ⟨polled_step hpolled ht, namesMinute_step hpolled hnames hok⟩
    refine run_invariant_of_allSteps hstep ?_ hok h
    exact ⟨⟨by simp [Measured.begin], by simp [Measured.begin]⟩,
      by simp [NamesMinute, Measured.begin]⟩
  exact hinv.2

/-- A cycle begins in the last second of a minute. It polls in the next second, and the list of the
processes takes so long that the 59 seconds are over then. -/
def slowPoll : List ClientEvent :=
  List.replicate 5 (.gather (annInput 1)) ++ [.elapse 1] ++
    List.replicate 2 (.gather (annInput 1)) ++ [.elapse 58] ++
    List.replicate 4 (.gather (annInput 1))

theorem frames_name_their_minute_slow :
    ∃ p, run measuredStep slowPoll (GatherState.begin 1000000079 32 1, Measured.begin) = some p ∧
      p.2.frames.map Prod.snd = [[1000000080]] ∧ NamesMinute p :=
  ⟨_, rfl, by decide, @frames_name_their_minute 1000000079 32 1 slowPoll _ (by decide) rfl⟩

/-- A cycle begins one second after a full minute, polls, and waits for the next one. -/
def oneCycle : List ClientEvent :=
  List.replicate 9 (.gather (annInput 1)) ++ [.elapse 59] ++
    List.replicate 4 (.gather (annInput 1))

/-- The poll was made in the minute before the one that the frame names. -/
theorem frames_name_their_minute_fails :
    ∃ p, run measuredStep oneCycle (GatherState.begin 1000000021 32 1, Measured.begin) = some p ∧
      p.2.frames.map (fun f => (f.1.timestamp, f.2)) = [(1000000080, [1000000021])] ∧
      ¬ NamesMinute p :=
  ⟨_, rfl, by decide, by decide⟩

end Monitoring.Client
