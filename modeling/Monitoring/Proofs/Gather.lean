import Mathlib.Data.Set.List
import Monitoring.Client.Gather
import Monitoring.Proofs.Drain
import Monitoring.Proofs.ZeroBlock

/-!
# `Monitoring.Proofs.Gather`: one frame for a user and a minute

A client builds frames at two places, and both stamp them with the minute of the clock, whatever
was measured in it. `SameEdition` is the condition under which no harm comes of it: a frame is built
for a user and a minute for the second time only from the same array, and before a poll has set
another bit in it.

`Sourced` says where frames come from: what is in EVENTS, and what was handed to a socket, was
built before. `Printed` says that a frame of the present edition shows the words as they stand, and
`Agree` that the frames built for one user and one timestamp have the same words.
`one_frame_per_minute` puts them together: in every run of events that meet `SameEdition` the frames
that were delivered for a user and a timestamp are the same, and the rows that the server queues for
them are the same too.
-/

set_option autoImplicit false

namespace Monitoring.Client

open Monitoring.Lib

/-! ### Which frames are built -/

/-- The frame an event builds, if it builds one. -/
def GatherState.builds (s : GatherState) : ClientEvent → Option BuiltFrame
  | .elapse _ => none
  | .gather _ => if s.pc = .build then s.finishedFrame else none
  | .request _ outside => s.requestFrame outside
  | .callHome _ => none

/-- If the event builds a frame, and one was built before for the same user while
`get_rounded_timestamp` had the same value, then both are prints of the whole array, with no new
cycle and no new bit in between. -/
def SameEdition (s : GatherState) (e : ClientEvent) : Prop :=
  ∀ b ∈ s.builds e, ∀ b' ∈ s.built, b'.user = b.user → b'.stamp = b.stamp →
    b.edition = some s.edition ∧ b'.edition = some s.edition

instance (s : GatherState) (e : ClientEvent) : Decidable (SameEdition s e) :=
  inferInstanceAs (Decidable (∀ b ∈ s.builds e, ∀ b' ∈ s.built, _ → _ → _))

section
variable {s t : GatherState}

/-- What a statement of `gather_data` does to the words, and to the frames. The words stay, or
there is a new edition of them. With a frame it does nothing, or it builds one, hands it on, or
pushes it. -/
theorem gatherStep_frames {input : GatherInput} (h : gatherStep input s = some t) :
    t.responses = s.responses ∧
    ((t.edition = s.edition ∧ t.blocks = s.blocks) ∨ t.edition = s.edition + 1) ∧
    ((t.events = s.events ∧ t.built = s.built ∧ s.pc ≠ .build ∧
        ∀ line, t.pc ≠ .delete line ∧ t.pc ≠ .store line) ∨
      (s.pc = .build ∧ t.events = s.events ∧ t.built = s.built ++ s.finishedFrame.toList ∧
        t.pc = .delete ((s.finishedFrame.map BuiltFrame.bytes).getD [])) ∨
      (∃ line, s.pc = .delete line ∧ t.events = s.events ∧ t.built = s.built ∧
        t.pc = .store line) ∨
      ∃ line, s.pc = .store line ∧ t.built = s.built ∧ t.pc = .cleanup ∧
        t.events = if line.length > 0 then s.events ++ [line] else s.events) := by
  unfold gatherStep at h
  cases hpc : s.pc with
  | script | start | mark t | logout | cleanup =>
      rw [hpc] at h
      cases h
      exact ⟨rfl, Or.inl ⟨rfl, rfl⟩, Or.inl ⟨rfl, rfl, by simp, by simp⟩⟩
  | login | test t | wait t =>
      rw [hpc] at h
      cases h
      refine ⟨rfl, Or.inl ⟨rfl, rfl⟩, Or.inl ⟨rfl, rfl, by simp, fun line => ?_⟩⟩
      dsimp only
      split <;> simp
  -- a new array, which no frame has been built from
  | setup =>
      rw [hpc] at h
      obtain ⟨-, h⟩ := Option.ite_none_left_eq_some.mp h
      cases h
      exact ⟨rfl, Or.inr rfl, Or.inl ⟨rfl, rfl, by simp, by simp⟩⟩
  | poll t j =>
      rw [hpc] at h
      dsimp only at h
      split at h
      · cases h
        refine ⟨rfl, ?_, Or.inl ⟨rfl, rfl, by simp, by simp⟩⟩
        -- the edition is new if the poll sets a bit
        dsimp only
        split
        · exact Or.inl ⟨rfl, ‹_›⟩
        · exact Or.inr rfl
      · cases h
        exact ⟨rfl, Or.inl ⟨rfl, rfl⟩, Or.inl ⟨rfl, rfl, by simp, by simp⟩⟩
  | asleep t wakes =>
      rw [hpc] at h
      dsimp only at h
      split at h
      · cases h
        exact ⟨rfl, Or.inl ⟨rfl, rfl⟩, Or.inl ⟨rfl, rfl, by simp, by simp⟩⟩
      · cases h
  | build =>
      rw [hpc] at h
      dsimp only at h
      cases hframe : s.finishedFrame with
      | none =>
          rw [hframe] at h
          cases h
          exact ⟨rfl, Or.inl ⟨rfl, rfl⟩,
            Or.inr (Or.inl ⟨rfl, rfl, (List.append_nil _).symm, rfl⟩)⟩
      | some b =>
          rw [hframe] at h
          cases h
          exact ⟨rfl, Or.inl ⟨rfl, rfl⟩, Or.inr (Or.inl ⟨rfl, rfl, rfl, rfl⟩)⟩
  | delete line =>
      rw [hpc] at h
      cases h
      exact ⟨rfl, Or.inl ⟨rfl, rfl⟩, Or.inr (Or.inr (Or.inl ⟨line, rfl, rfl, rfl, rfl⟩))⟩
  | store line =>
      rw [hpc] at h
      cases h
      exact ⟨rfl, Or.inl ⟨rfl, rfl⟩, Or.inr (Or.inr (Or.inr ⟨line, rfl, rfl, rfl, rfl⟩))⟩

/-- What a request does to the frames. -/
theorem requestStep_frames {outcomes : Nat → WriteOutcome} {outside : Nat → UInt32}
    (h : requestStep outcomes outside s = some t) :
    t.pc = s.pc ∧ t.built = s.built ++ (s.requestFrame outside).toList ∧
    ((s.loggedIn = false ∧ t.events = s.events ∧ t.responses = s.responses) ∨
      (s.loggedIn = true ∧ t.events = [] ∧ ∃ r, t.responses = s.responses ++ [r] ∧
        ∀ f ∈ r, f = [] ∨ (∃ line ∈ s.events, f = cstr line) ∨
          ∃ b ∈ s.requestFrame outside, f = cstr b.bytes)) := by
  obtain ⟨q, hq, rfl⟩ := requestStep_eq h
  refine ⟨rfl, rfl, ?_⟩
  cases hlogged : s.loggedIn with
  | false =>
      rw [hlogged] at hq
      cases hq
      exact Or.inl ⟨rfl, rfl, by simp⟩
  | true =>
      -- what is written comes from EVENTS, or is the frame built for this request
      obtain ⟨hevents, hwire⟩ := answerRequest_linux hlogged hq
      refine Or.inr ⟨rfl, hevents, q.wire.map Sent.event, by simp, fun f hf => ?_⟩
      obtain ⟨w, hw, rfl⟩ := List.mem_map.mp hf
      obtain ⟨hevent, hline | ⟨-, hline⟩⟩ := hwire w hw
      · exact Or.inr (Or.inl ⟨w.line, hline, hevent⟩)
      · rw [hevent, hline]
        cases hframe : s.requestFrame outside with
        | none => exact Or.inl rfl
        | some b => exact Or.inr (Or.inr ⟨b, rfl, rfl⟩)

/-- An event adds the frame it builds, and no other. -/
theorem clientStep_built {e : ClientEvent} (h : clientStep s e = some t) :
    t.built = s.built ++ (s.builds e).toList := by
  cases e with
  | elapse n | callHome n =>
      cases h
      exact (List.append_nil _).symm
  | gather input =>
      obtain ⟨-, -, ⟨-, hbuilt, hpc, -⟩ | ⟨hpc, -, hbuilt, -⟩ | ⟨line, hpc, -, hbuilt, -⟩ |
        ⟨line, hpc, hbuilt, -⟩⟩ := gatherStep_frames h
      · rw [hbuilt]
        simp [GatherState.builds, hpc]
      · rw [hbuilt]
        simp [GatherState.builds, hpc]
      · rw [hbuilt]
        simp [GatherState.builds, hpc]
      · rw [hbuilt]
        simp [GatherState.builds, hpc]
  | request outcomes outside => exact (requestStep_frames h).2.1

end

/-! ### Where frames come from -/

/-- `f` is a frame that was built. -/
def FromBuilt (s : GatherState) (f : Bytes) : Prop := ∃ b ∈ s.built, f = b.bytes

/-- `f` is what a socket is handed of a frame that was built: its bytes up to the first NUL. -/
def SentFromBuilt (s : GatherState) (f : Bytes) : Prop := ∃ b ∈ s.built, f = cstr b.bytes

/-- Every frame on its way was built. -/
structure Sourced (s : GatherState) : Prop where
  events : ∀ f ∈ s.events, FromBuilt s f
  line : ∀ f, s.pc = .delete f ∨ s.pc = .store f → f = [] ∨ FromBuilt s f
  responses : ∀ r ∈ s.responses, ∀ f ∈ r, f = [] ∨ SentFromBuilt s f

section
variable {s t : GatherState}

theorem FromBuilt.mono {f : Bytes} (h : FromBuilt s f) (hbuilt : s.built ⊆ t.built) :
    FromBuilt t f :=
  h.imp fun _ hb => ⟨hbuilt hb.1, hb.2⟩

theorem SentFromBuilt.mono {f : Bytes} (h : SentFromBuilt s f) (hbuilt : s.built ⊆ t.built) :
    SentFromBuilt t f :=
  h.imp fun _ hb => ⟨hbuilt hb.1, hb.2⟩

/-- A statement of `gather_data` keeps the sources. -/
theorem sourced_gather {input : GatherInput} (hs : Sourced s) (h : gatherStep input s = some t) :
    Sourced t := by
  have hsub : s.built ⊆ t.built := by
    rw [clientStep_built (e := .gather input) h]
    exact List.subset_append_left _ _
  obtain ⟨hresponses, -, hcases⟩ := gatherStep_frames h
  have hresponses' : ∀ r ∈ t.responses, ∀ f ∈ r, f = [] ∨ SentFromBuilt t f := by
    intro r hr f hf
    rw [hresponses] at hr
    exact (hs.responses r hr f hf).imp id (·.mono hsub)
  have hevents : ∀ f ∈ s.events, FromBuilt t f := fun f hf => (hs.events f hf).mono hsub
  rcases hcases with ⟨hev, -, -, hpc⟩ | ⟨-, hev, hbuilt, hpc⟩ | ⟨line, hline, hev, -, hpc⟩ |
    ⟨line, hline, -, hpc, hev⟩
  · refine ⟨fun f hf => hevents f (hev ▸ hf), fun f hf => ?_, hresponses'⟩
    exact absurd hf (not_or.mpr (hpc f))
  · refine ⟨fun f hf => hevents f (hev ▸ hf), fun f hf => ?_, hresponses'⟩
    -- the line is the frame that was built, if there is one
    rw [hpc] at hf
    rcases hf with hf | hf
    · cases hf
      cases hframe : s.finishedFrame with
      | none => exact Or.inl rfl
      | some b => exact Or.inr ⟨b, by simp [hbuilt, hframe], rfl⟩
    · cases hf
  · refine ⟨fun f hf => hevents f (hev ▸ hf), fun f hf => ?_, hresponses'⟩
    rw [hpc] at hf
    rcases hf with hf | hf
    · cases hf
    · cases hf
      exact (hs.line line (Or.inl hline)).imp id (·.mono hsub)
  · refine ⟨fun f hf => ?_, fun f hf => ?_, hresponses'⟩
    · rw [hev] at hf
      split at hf
      · rename_i hlength
        rcases List.mem_append.mp hf with hf | hf
        · exact hevents f hf
        · obtain rfl := List.mem_singleton.mp hf
          rcases hs.line f (Or.inr hline) with rfl | hfrom
          · exact absurd hlength (by simp)
          · exact hfrom.mono hsub
      · exact hevents f hf
    · rw [hpc] at hf
      rcases hf with hf | hf <;> cases hf

/-- So does a request. -/
theorem sourced_request {outcomes : Nat → WriteOutcome} {outside : Nat → UInt32} (hs : Sourced s)
    (h : requestStep outcomes outside s = some t) : Sourced t := by
  obtain ⟨hpc, hbuilt, hcases⟩ := requestStep_frames h
  have hsub : s.built ⊆ t.built := by
    rw [hbuilt]
    exact List.subset_append_left _ _
  have hline : ∀ f, t.pc = .delete f ∨ t.pc = .store f → f = [] ∨ FromBuilt t f := by
    intro f hf
    rw [hpc] at hf
    exact (hs.line f hf).imp id (·.mono hsub)
  have hold : ∀ r ∈ s.responses, ∀ f ∈ r, f = [] ∨ SentFromBuilt t f :=
    fun r hr f hf => (hs.responses r hr f hf).imp id (·.mono hsub)
  rcases hcases with ⟨-, hev, hresponses⟩ | ⟨-, hev, r, hresponses, hr⟩
  · refine ⟨fun f hf => ?_, hline, fun r hr => hold r (hresponses ▸ hr)⟩
    rw [hev] at hf
    exact (hs.events f hf).mono hsub
  · refine ⟨fun f hf => ?_, hline, fun r' hr' f hf => ?_⟩
    · rw [hev] at hf
      cases hf
    · rw [hresponses] at hr'
      rcases List.mem_append.mp hr' with hr' | hr'
      · exact hold r' hr' f hf
      · obtain rfl := List.mem_singleton.mp hr'
        rcases hr f hf with rfl | ⟨line, hmem, rfl⟩ | ⟨b, hb, rfl⟩
        · exact Or.inl rfl
        · obtain ⟨b, hb, rfl⟩ := hs.events line hmem
          exact Or.inr ⟨b, hsub hb, rfl⟩
        · refine Or.inr ⟨b, ?_, rfl⟩
          rw [hbuilt, Option.mem_def.mp hb]
          simp

theorem sourced_step {e : ClientEvent} (hs : Sourced s) (h : clientStep s e = some t) :
    Sourced t := by
  cases e with
  | elapse n | callHome n =>
      cases h
      exact ⟨hs.events, hs.line, hs.responses⟩
  | gather input => exact sourced_gather hs h
  | request outcomes outside => exact sourced_request hs h

end

theorem sourced_begin (clock eventSize programCount : Int) :
    Sourced (GatherState.begin clock eventSize programCount) where
  events := fun _ hf => nomatch hf
  line := by
    rintro f (hf | hf) <;> cases hf
  responses := fun _ hr => nomatch hr

/-! ### Editions of the words -/

section
variable {s t : GatherState} {e : ClientEvent}

/-- An event leaves the words alone, or makes a new edition of them. -/
theorem clientStep_edition (h : clientStep s e = some t) :
    (t.edition = s.edition ∧ t.blocks = s.blocks) ∨ t.edition = s.edition + 1 := by
  cases e with
  | elapse n | callHome n =>
      cases h
      exact Or.inl ⟨rfl, rfl⟩
  | gather input => exact (gatherStep_frames h).2.1
  | request outcomes outside =>
      obtain ⟨q, -, rfl⟩ := requestStep_eq h
      exact Or.inl ⟨rfl, rfl⟩

/-- Where `get_current_event` reads the whole array, its words are the array. -/
theorem currentWords_eq (h : s.ReadsArray) (outside : Nat → UInt32) :
    s.currentWords outside = s.blocks := by
  obtain ⟨hlive, hlength⟩ := h
  unfold GatherState.currentWords
  rw [hlength]
  refine List.ext_getElem (by simp) fun i _ hi => ?_
  simp [hlive, hi]

/-- A frame that has an edition has the present one, and shows the words as they stand. -/
theorem builds_edition {b : BuiltFrame} (hb : b ∈ s.builds e) {n : Nat} (hn : b.edition = some n) :
    n = s.edition ∧ b.words = s.blocks := by
  cases e with
  | elapse k | callHome k => cases hb
  | gather input =>
      obtain ⟨-, hb⟩ := Option.ite_none_right_eq_some.mp hb
      obtain ⟨-, hb⟩ := Option.ite_none_right_eq_some.mp hb
      cases hb
      exact ⟨(Option.some.inj hn).symm, rfl⟩
  | request outcomes outside =>
      obtain ⟨-, hb⟩ := Option.ite_none_right_eq_some.mp hb
      obtain ⟨-, hb⟩ := Option.ite_none_left_eq_some.mp hb
      cases hb
      obtain ⟨hreads, hn⟩ := Option.ite_none_right_eq_some.mp hn
      exact ⟨(Option.some.inj hn).symm, currentWords_eq hreads outside⟩

end

/-- No frame is of an edition to come, and those of the present one show the words as they
stand. -/
def Printed (s : GatherState) : Prop :=
  ∀ b ∈ s.built, ∀ n, b.edition = some n → n ≤ s.edition ∧ (n = s.edition → b.words = s.blocks)

theorem printed_step {s t : GatherState} {e : ClientEvent} (hs : Printed s)
    (h : clientStep s e = some t) : Printed t := by
  have hbuilt := clientStep_built h
  intro b hb n hn
  rw [hbuilt, List.mem_append, Option.mem_toList] at hb
  have hold : n ≤ s.edition ∧ (n = s.edition → b.words = s.blocks) := by
    rcases hb with hb | hb
    · exact hs b hb n hn
    · obtain ⟨hedition, hwords⟩ := builds_edition hb hn
      exact ⟨hedition.le, fun _ => hwords⟩
  rcases clientStep_edition h with ⟨hedition, hblocks⟩ | hedition
  · rw [hedition, hblocks]
    exact hold
  · -- what was printed before is behind by one
    rw [hedition]
    exact ⟨Nat.le_succ_of_le hold.1, fun hn => absurd hold.1 (by omega)⟩

theorem printed_begin (clock eventSize programCount : Int) :
    Printed (GatherState.begin clock eventSize programCount) :=
  fun _ hb => nomatch hb

/-! ### The words of one user and timestamp -/

/-- The frames built for one user and one timestamp have the same words. -/
def Agree (s : GatherState) : Prop :=
  ∀ b ∈ s.built, ∀ b' ∈ s.built, b.user = b'.user → b.stamp = b'.stamp → b.words = b'.words

theorem agree_step {s t : GatherState} {e : ClientEvent} (hprinted : Printed s) (hs : Agree s)
    (hok : SameEdition s e) (h : clientStep s e = some t) : Agree t := by
  have hbuilt := clientStep_built h
  -- the new frame shows the words as they stand, and so do the old ones it can be mistaken for
  have hnew : ∀ b ∈ s.builds e, ∀ b' ∈ s.built, b'.user = b.user → b'.stamp = b.stamp →
      b'.words = b.words := by
    intro b hb b' hb' huser hstamp
    obtain ⟨hedition, hedition'⟩ := hok b hb b' hb' huser hstamp
    calc b'.words = s.blocks := (hprinted b' hb' s.edition hedition').2 rfl
      _ = b.words := (builds_edition hb hedition).2.symm
  intro b hb b' hb' huser hstamp
  rw [hbuilt, List.mem_append, Option.mem_toList] at hb hb'
  -- old and old, old and new, new and old, and the new one with itself
  rcases hb with hb | hb <;> rcases hb' with hb' | hb'
  · exact hs b hb b' hb' huser hstamp
  · exact hnew b' hb' b hb huser hstamp
  · exact (hnew b hb b' hb' huser.symm hstamp.symm).symm
  · rw [Option.mem_unique hb hb']

/-- User, timestamp and words are all that `build_event` packs. -/
theorem bytes_eq_of_words {b b' : BuiltFrame} (huser : b.user = b'.user)
    (hstamp : b.stamp = b'.stamp) (hwords : b.words = b'.words) : b.bytes = b'.bytes := by
  unfold BuiltFrame.stamp at hstamp
  unfold BuiltFrame.bytes buildEventAt buildEvent
  rw [huser, hwords, hstamp]

/-! ### The rows of the server -/

/-- The frame fits the format: one to nine blocks, a name of at most 255 bytes, and a clock whose
minute has ten digits and fits an `int`. -/
structure BuiltFrame.WellFormed (b : BuiltFrame) : Prop where
  words_pos : 0 < b.words.length
  words_le : b.words.length ≤ 9
  user_le : b.user.length ≤ 255
  user_nul : 0 ∉ b.user
  clock_ge : 1000000000 ≤ b.clock - tmSec b.clock
  clock_lt : b.clock < 2147483648

namespace BuiltFrame

variable {b : BuiltFrame}

/-- The minute of a frame, as a number. -/
def minute (b : BuiltFrame) : Nat := (b.clock - tmSec b.clock).toNat

theorem WellFormed.minute_bounds (h : b.WellFormed) :
    10 ^ 9 ≤ b.minute ∧ b.minute < 10 ^ 10 := by
  have h1 := h.clock_ge
  have h2 := h.clock_lt
  have hsec : 0 ≤ tmSec b.clock := Int.emod_nonneg _ (by decide)
  unfold minute
  omega

theorem WellFormed.timestamp (h : b.WellFormed) :
    getRoundedTimestamp b.clock = printBase 10 b.minute := by
  have h1 := h.clock_ge
  have h2 := h.clock_lt
  have hsec : 0 ≤ tmSec b.clock := Int.emod_nonneg _ (by decide)
  exact getRoundedTimestamp_of_fits (by omega) (by omega)

/-- Ten digits. -/
theorem WellFormed.length_timestamp (h : b.WellFormed) :
    (getRoundedTimestamp b.clock).length = 10 := by
  obtain ⟨hlo, hhi⟩ := h.minute_bounds
  rw [h.timestamp]
  exact length_printBase_ten hlo hhi

/-- A frame that fits the format, as a value that carries its bounds. -/
def toFrame (b : BuiltFrame) (h : b.WellFormed) : Frame where
  words := b.words
  user := b.user
  stamp := getRoundedTimestamp b.clock
  words_le := h.words_le
  user_le := h.user_le
  user_nul := h.user_nul
  stamp_length := h.length_timestamp
  stamp_digits := by
    intro c hc
    rw [h.timestamp] at hc
    exact isDigit_of_mem_printBase (by decide) (by decide) hc

/-- The value of the timestamp is the minute. -/
theorem fieldValue_toFrame (h : b.WellFormed) :
    fieldValue 10 (b.toFrame h).stamp = b.minute := by
  unfold toFrame
  dsimp only
  rw [h.timestamp, fieldValue_printBase _ (by decide) (by decide)]

/-- Frames of the same minute have the same timestamp. -/
theorem stamp_eq_of_minute {b' : BuiltFrame} (h : b.WellFormed) (h' : b'.WellFormed)
    (hminute : b.minute = b'.minute) : b.stamp = b'.stamp := by
  unfold stamp
  rw [h.timestamp, h'.timestamp, hminute]

end BuiltFrame

/-- The response is made of frames that fit the format, and the server can measure it. -/
def Readable (s : GatherState) (r : List Bytes) : Prop :=
  r ≠ [] ∧ r.flatten.length < 2 ^ 31 ∧ ∀ f ∈ r, ∃ b ∈ s.built, b.WellFormed ∧ f = b.bytes

open Server (EVENT ParseEnv ParseState Queues decodeResponse frameRow frameRows)

/-- A row of a frame belongs to one of its blocks. -/
theorem exists_frameRow {machine : Bytes} {f : Frame} {e : EVENT} (h : e ∈ frameRows machine f) :
    ∃ i, e = frameRow machine f i := by
  obtain ⟨i, -, hkept⟩ := List.mem_filterMap.mp h
  unfold Server.keptRow at hkept
  obtain ⟨-, hrow⟩ := Option.ite_none_left_eq_some.mp hkept
  exact ⟨i, (Option.some.inj hrow).symm⟩

/-- The server decodes a response whose frames have blocks. -/
theorem queues_of_frames {fs : List Frame} (hne : fs ≠ []) (hblocks : ∀ f ∈ fs, f.words ≠ [])
    (hlen : (concatFrames fs).length < 2 ^ 31) {env : ParseEnv} {outside : Int → Byte}
    {machine : Bytes} {st : ParseState} :
    Queues (fun fuel => decodeResponse env outside (concatFrames fs) machine fuel st) st
      (fs.flatMap (frameRows machine)) := by
  obtain ⟨f, rest, rfl⟩ := List.exists_cons_of_ne_nil hne
  exact Server.decodeFrames_blocks env outside machine st (hblocks f (List.mem_cons_self ..)) hlen

/-- What the server queues for a response of such frames. -/
theorem rows_of_readable {s : GatherState} {r : List Bytes} (hr : Readable s r) {env : ParseEnv}
    {outside : Int → Byte} {machine : Bytes} {st : ParseState} {rows : List EVENT}
    (h : Queues (fun fuel => decodeResponse env outside r.flatten machine fuel st) st rows)
    {e : EVENT} (he : e ∈ rows) :
    ∃ b ∈ s.built, ∃ i, ∃ hb : b.WellFormed, e = frameRow machine (b.toFrame hb) i := by
  obtain ⟨hne, hlen, hframes⟩ := hr
  -- the response as the frames it is made of
  obtain ⟨bs, rfl⟩ : ∃ bs : List {b : BuiltFrame // b ∈ s.built ∧ b.WellFormed},
      bs.map (fun b => b.1.bytes) = r := by
    have hrange : r ∈ Set.range
        (List.map fun b : {b : BuiltFrame // b ∈ s.built ∧ b.WellFormed} => b.1.bytes) := by
      rw [Set.range_list_map]
      intro f hf
      obtain ⟨b, hb, hwell, rfl⟩ := hframes f hf
      exact ⟨⟨b, hb, hwell⟩, rfl⟩
    exact hrange
  have hflatten : (bs.map fun b => b.1.bytes).flatten
      = concatFrames (bs.map fun b => b.1.toFrame b.2.2) := by
    unfold concatFrames
    rw [← List.flatMap_def, List.flatMap_map]
    rfl
  rw [hflatten] at h hlen
  have hblocks : ∀ f ∈ bs.map (fun b => b.1.toFrame b.2.2), f.words ≠ [] := by
    intro f hf
    obtain ⟨b, -, rfl⟩ := List.mem_map.mp hf
    exact List.length_pos_iff.mp b.2.2.words_pos
  have hne' : bs.map (fun b => b.1.toFrame b.2.2) ≠ [] :=
    fun hnil => hne (by rw [List.map_eq_nil_iff.mp hnil, List.map_nil])
  have hrows := h.unique (queues_of_frames hne' hblocks hlen)
  rw [hrows] at he
  obtain ⟨f, hf, hef⟩ := List.mem_flatMap.mp he
  obtain ⟨b, -, rfl⟩ := List.mem_map.mp hf
  obtain ⟨i, hi⟩ := exists_frameRow hef
  exact ⟨b.1, b.2.1, i, b.2.2, hi⟩

/-! ### Runs -/

/-- What one frame for a user and a minute means. `delivered` says that no other frames reach a
socket than those that were built; two of these for the same user and timestamp are the same bytes;
and two rows that the server queues for them, with the same block offset, are the same row. -/
structure OneFrame (s : GatherState) : Prop where
  delivered : ∀ r ∈ s.responses, ∀ f ∈ r, f = [] ∨ SentFromBuilt s f
  identical : ∀ b ∈ s.built, ∀ b' ∈ s.built,
    (∃ r ∈ s.responses, cstr b.bytes ∈ r) → (∃ r ∈ s.responses, cstr b'.bytes ∈ r) →
    b.user = b'.user → b.stamp = b'.stamp → b.bytes = b'.bytes
  rows : ∀ r ∈ s.responses, ∀ r' ∈ s.responses, Readable s r → Readable s r' →
    ∀ env outside env' outside' machine st st' rows rows',
    Queues (fun fuel => decodeResponse env outside r.flatten machine fuel st) st rows →
    Queues (fun fuel => decodeResponse env' outside' r'.flatten machine fuel st') st' rows' →
    ∀ e ∈ rows, ∀ e' ∈ rows', e.user = e'.user → e.timestamp = e'.timestamp →
      e.blockOffset = e'.blockOffset → e = e'

theorem oneFrame_of_agree {s : GatherState} (hs : Sourced s) (hagree : Agree s) : OneFrame s where
  delivered := hs.responses
  identical := fun b hb b' hb' _ _ huser hstamp =>
    bytes_eq_of_words huser hstamp (hagree b hb b' hb' huser hstamp)
  rows := by
    intro r _ r' _ hr hr' env outside env' outside' machine st st' rows rows' hrows hrows' e he e'
      he' huser htime hoffset
    obtain ⟨b, hb, i, hwell, rfl⟩ := rows_of_readable hr hrows he
    obtain ⟨b', hb', i', hwell', rfl⟩ := rows_of_readable hr' hrows' he'
    -- a row shows the minute of its frame
    have hminute : b.minute = b'.minute := by
      have htime' : ((fieldValue 10 (b.toFrame hwell).stamp : Nat) : Int)
          = (fieldValue 10 (b'.toFrame hwell').stamp : Nat) := htime
      rw [BuiltFrame.fieldValue_toFrame, BuiltFrame.fieldValue_toFrame] at htime'
      exact Int.ofNat_inj.mp htime'
    have hwords := hagree b hb b' hb' huser
      (BuiltFrame.stamp_eq_of_minute hwell hwell' hminute)
    -- and the block it belongs to
    obtain rfl : i = i' := Nat.succ.inj hoffset
    have hframe : b.toFrame hwell = b'.toFrame hwell' := by
      unfold BuiltFrame.toFrame
      rw [Frame.mk.injEq, hwell.timestamp, hwell'.timestamp, hminute]
      exact ⟨hwords, huser, rfl⟩
    rw [hframe]

/-- In every run in which a user and a minute get a second frame only from the same edition of the
words, there is one frame for a user and a minute. -/
theorem one_frame_per_minute {clock eventSize programCount : Int} {es : List ClientEvent}
    {s : GatherState}
    (hok : AllSteps clientStep SameEdition es (GatherState.begin clock eventSize programCount))
    (h : run clientStep es (GatherState.begin clock eventSize programCount) = some s) :
    OneFrame s := by
  have hinv : Sourced s ∧ Printed s ∧ Agree s := by
    have hstep : ∀ s e t, Sourced s ∧ Printed s ∧ Agree s → SameEdition s e →
        clientStep s e = some t → Sourced t ∧ Printed t ∧ Agree t := by
      rintro s e t ⟨hsourced, hprinted, hagree⟩ hok h
      exact ⟨sourced_step hsourced h, printed_step hprinted h, agree_step hprinted hagree hok h⟩
    refine run_invariant_of_allSteps hstep ?_ hok h
    exact ⟨sourced_begin clock eventSize programCount, printed_begin clock eventSize programCount,
      fun b hb => nomatch hb⟩
  exact oneFrame_of_agree hinv.1 hinv.2.2

/-- `ann` is logged in; the processes show the programs of `tally`. -/
def annInput (tally : UInt32) : GatherInput := ⟨[⟨[ch 'a', ch 'n', ch 'n'], true⟩], 1, tally⟩

/-- The server asks, and the answer gets through. -/
def ask : ClientEvent := .request (fun _ => ⟨100, 0⟩) fun _ => 0

/-- A cycle begins one second after a full minute, polls, and waits for the next one. Its 59 seconds
are over then. The server asks before and after the cycle builds its frame. -/
def askedAround : List ClientEvent :=
  List.replicate 9 (.gather (annInput 1)) ++ [.elapse 59] ++
    List.replicate 2 (.gather (annInput 1)) ++ [ask] ++ List.replicate 4 (.gather (annInput 1)) ++
    [ask]

theorem one_frame_per_minute_around :
    ∃ s, run clientStep askedAround (GatherState.begin 1000000021 32 1) = some s ∧
      s.built.length = 2 ∧ s.responses.length = 2 ∧ OneFrame s :=
  ⟨_, rfl, by decide, by decide,
    @one_frame_per_minute 1000000021 32 1 askedAround _ (by decide) rfl⟩

/-- A cycle begins two seconds after a full minute, polls, and waits for the next one. That is still
inside its 59 seconds. The server asks; the cycle polls again and ends a second later; and the
server asks again. -/
def askedTwice : List ClientEvent :=
  List.replicate 9 (.gather (annInput 1)) ++ [.elapse 58] ++
    List.replicate 2 (.gather (annInput 1)) ++ [ask] ++ List.replicate 5 (.gather (annInput 2)) ++
    [.elapse 1] ++ List.replicate 4 (.gather (annInput 2)) ++ [ask]

/-- The answers hold two frames of `ann` with the same timestamp, one of them without the program
that the second poll found. -/
theorem one_frame_per_minute_fails :
    ∃ s, run clientStep askedTwice (GatherState.begin 1000000022 32 1) = some s ∧
      ∃ b ∈ s.built, ∃ b' ∈ s.built,
        (∃ r ∈ s.responses, cstr b.bytes ∈ r) ∧ (∃ r ∈ s.responses, cstr b'.bytes ∈ r) ∧
        b.user = b'.user ∧ b.stamp = b'.stamp ∧ b.bytes ≠ b'.bytes := by
  refine ⟨_, rfl, ⟨1000000080, [1], [ch 'a', ch 'n', ch 'n'], some 2⟩, by decide,
    ⟨1000000081, [3], [ch 'a', ch 'n', ch 'n'], some 3⟩, by decide, by decide, by decide, rfl,
    by decide, by decide⟩

end Monitoring.Client
