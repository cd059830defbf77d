import Monitoring.Client.Monitor
import Monitoring.Proofs.Detection
import Monitoring.Proofs.Distribution
import Monitoring.Proofs.Gather
import Monitoring.Proofs.ProgramLists

/-!
# `Monitoring.Proofs.Monitor`: what the bits of a frame say

`MonitorInv` is kept by every step: a bit of the array is set exactly if a poll of its block, since
the array was allocated, has found the entry of PROGRAM_LIST at its place. So it is with the words
of every frame that is built from the whole array (`frame_bits`), whatever the list has been.
-/

set_option autoImplicit false

namespace Monitoring.Client

open Monitoring.Lib

/-! ### The array -/

/-- One of the polls has found the entry that belongs to bit `p` of word `i`. -/
def Found (polls : List BlockPoll) (i p : Nat) : Prop :=
  ∃ poll ∈ polls, poll.block = i ∧ Detects poll.programList poll.processes (32 * i + p)

/-- The words say what the polls have found. -/
def Words (words : List UInt32) (polls : List BlockPoll) : Prop :=
  ∀ i < words.length, ∀ p < 32, (words.getD i 0).toNat.testBit p = true ↔ Found polls i p

section
variable {words : List UInt32} {polls : List BlockPoll} {poll : BlockPoll} {i p : Nat}

theorem testBit_tally (hp : p < 32) : poll.tally.toNat.testBit p = true ↔
    Detects poll.programList poll.processes (32 * poll.block + p) := by
  have htally :
      (tallyProgramCount poll.programList poll.processes (poll.block + 1)).getLsbD p = true ↔
        Detects poll.programList poll.processes ((poll.block + 1 - 1) * 32 + p) :=
    getLsbD_eq_detects hp
  rw [Nat.add_sub_cancel, Nat.mul_comm] at htally
  exact htally

theorem found_append : Found (polls ++ [poll]) i p ↔ Found polls i p ∨
    poll.block = i ∧ Detects poll.programList poll.processes (32 * i + p) := by
  unfold Found
  simp only [List.mem_append, List.mem_singleton, or_and_right, exists_or, exists_eq_left]

/-- A new array. -/
theorem words_replicate (n : Nat) : Words (List.replicate n 0) [] := by
  intro i hi p _
  rw [List.length_replicate] at hi
  rw [List.getD_eq_getElem?_getD, List.getElem?_replicate, if_pos hi]
  refine iff_of_false ?_ ?_
  · rw [Option.getD_some, UInt32.toNat_zero, Nat.zero_testBit]
    exact Bool.false_ne_true
  · rintro ⟨poll, hpoll, -⟩
    cases hpoll

/-- "blocks[j] = blocks[j] | tally". -/
theorem words_poll (h : Words words polls) (poll : BlockPoll) :
    Words (words.modify poll.block fun word => word ||| poll.tally) (polls ++ [poll]) := by
  intro i hi p hp
  rw [List.length_modify] at hi
  have hword := h i hi p hp
  have hget : words[i]? = some words[i] := List.getElem?_eq_getElem hi
  rw [List.getD_eq_getElem?_getD, hget, Option.getD_some] at hword
  rw [List.getD_eq_getElem?_getD, List.getElem?_modify, hget, Option.map_eq_map, Option.map_some,
    Option.getD_some, found_append]
  split
  · rename_i heq
    subst heq
    rw [UInt32.toNat_or, Nat.testBit_or, Bool.or_eq_true, hword, testBit_tally hp,
      and_iff_right rfl]
  · rename_i hne
    rw [hword]
    exact (or_iff_left fun hpoll => hne hpoll.1).symm

end

/-! ### A step -/

/-- The array, and the frames that were built from all of it. -/
structure MonitorInv (s : Monitor) : Prop where
  words : Words s.gather.blocks s.polls
  frames : ∀ f ∈ s.frames, f.1.edition ≠ none → Words f.1.words f.2
  built : s.frames.map Prod.fst = s.gather.built

section
variable {s t : Monitor}

/-- What `gather_data` does to its array. -/
theorem gatherStep_blocks {input : GatherInput} {s t : GatherState}
    (h : gatherStep input s = some t) :
    (s.pc = .setup ∧ ∃ n, t.blocks = List.replicate n 0) ∨
      (∃ u j, s.pc = .poll u j ∧ j < s.blocks.length ∧
        t.blocks = s.blocks.modify j fun word => word ||| input.tally) ∨
      (s.pc ≠ .setup ∧ (∀ u j, s.pc = .poll u j → ¬ j < s.blocks.length) ∧
        t.blocks = s.blocks) := by
  unfold gatherStep at h
  cases hpc : s.pc with
  | setup =>
      rw [hpc] at h
      obtain ⟨-, h⟩ := Option.ite_none_left_eq_some.mp h
      cases h
      exact Or.inl ⟨rfl, _, rfl⟩
  | poll u j =>
      rw [hpc] at h
      dsimp only at h
      split at h
      · rename_i hj
        cases h
        exact Or.inr (Or.inl ⟨u, j, rfl, hj, rfl⟩)
      · rename_i hj
        cases h
        refine Or.inr (Or.inr ⟨by rintro ⟨⟩, ?_, rfl⟩)
        rintro u' j' ⟨⟩
        exact hj
  | asleep u wakes =>
      rw [hpc] at h
      obtain ⟨-, h⟩ := Option.ite_none_right_eq_some.mp h
      cases h
      exact Or.inr (Or.inr ⟨by rintro ⟨⟩, by rintro _ _ ⟨⟩, rfl⟩)
  | build =>
      rw [hpc] at h
      dsimp only at h
      split at h <;> cases h <;> exact Or.inr (Or.inr ⟨by rintro ⟨⟩, by rintro _ _ ⟨⟩, rfl⟩)
  | _ =>
      rw [hpc] at h
      cases h
      exact Or.inr (Or.inr ⟨by rintro ⟨⟩, by rintro _ _ ⟨⟩, rfl⟩)

theorem go_eq_some {e : ClientEvent} {programs : ProgramState} {polls : List BlockPoll}
    (h : s.go e programs polls = some t) :
    clientStep s.gather e = some t.gather ∧ t.programs = programs ∧ t.polls = polls ∧
      t.frames = s.frames ++ (s.gather.builds e).toList.map (·, s.polls) := by
  obtain ⟨gather, hgather, rfl⟩ := Option.map_eq_some_iff.mp h
  refine ⟨hgather, rfl, rfl, ?_⟩
  dsimp only
  rw [clientStep_built hgather, List.drop_left]

/-- The frames keep their polls, so it is enough that the array fits. -/
theorem monitorInv_go {e : ClientEvent} {programs : ProgramState} {polls : List BlockPoll}
    (h : MonitorInv s) (hgo : s.go e programs polls = some t)
    (hwords : Words t.gather.blocks polls) : MonitorInv t := by
  obtain ⟨hstep, -, hpolls, hframes⟩ := go_eq_some hgo
  refine ⟨hpolls.symm ▸ hwords, fun f hf hedition => ?_, ?_⟩
  · rw [hframes] at hf
    rcases List.mem_append.mp hf with hf | hf
    · exact h.frames f hf hedition
    · obtain ⟨b, hb, rfl⟩ := List.mem_map.mp hf
      obtain ⟨n, hn⟩ := Option.ne_none_iff_exists'.mp hedition
      rw [(builds_edition (Option.mem_toList.mp hb) hn).2]
      exact h.words
  · rw [hframes, clientStep_built hstep, List.map_append, h.built, List.map_map]
    exact congrArg (s.gather.built ++ ·) (List.map_id _)

theorem monitorInv_gather {users : List User} {canRead : Bool} {memory output : Bytes}
    (h : MonitorInv s) (hstep : s.gatherData users canRead memory output = some t) :
    MonitorInv t := by
  obtain ⟨programs, -, hgo⟩ := Option.bind_eq_some_iff.mp hstep
  refine monitorInv_go h hgo ?_
  obtain ⟨hclient, -⟩ := go_eq_some hgo
  rcases gatherStep_blocks hclient with ⟨hpc, n, hblocks⟩ | ⟨u, j, hpc, hj, hblocks⟩ |
    ⟨hsetup, hpoll, hblocks⟩
  · rw [hblocks, if_pos hpc]
    exact words_replicate n
  · have hnext : s.nextPoll memory output = some ⟨j, s.programs.programList,
        (linuxGetRunningProc memory (getCurrentLocalUser s.gather.currentUsers) output).text⟩ := by
      unfold Monitor.nextPoll
      rw [hpc]
      exact if_pos hj
    rw [hblocks, hnext, if_neg (by rw [hpc]; rintro ⟨⟩)]
    exact words_poll h.words _
  · have hnone : s.nextPoll memory output = none := by
      unfold Monitor.nextPoll
      split
      · rename_i u j hpc
        exact if_neg (hpoll u j hpc)
      · rfl
    rw [hblocks, hnone, if_neg hsetup, Option.toList_none, List.append_nil]
    exact h.words

/-- Every step keeps the invariant. -/
theorem monitorInv_step {e : MonitorEvent} (h : MonitorInv s) (hstep : monitorStep s e = some t) :
    MonitorInv t := by
  cases e with
  | elapse seconds =>
      have hclient := (go_eq_some hstep).1
      exact monitorInv_go h hstep (by rw [← Option.some.inj hclient]; exact h.words)
  | gather users canRead memory output => exact monitorInv_gather h hstep
  | request outcomes outside =>
      obtain ⟨q, -, ht⟩ := requestStep_eq (go_eq_some hstep).1
      exact monitorInv_go h hstep (by rw [ht]; exact h.words)
  | callHome list canWrite canRead =>
      obtain ⟨programs, -, hgo⟩ := Option.bind_eq_some_iff.mp hstep
      have hclient := (go_eq_some hgo).1
      exact monitorInv_go h hgo (by rw [← Option.some.inj hclient]; exact h.words)
  | push message access | edit file =>
      cases hstep
      exact ⟨h.words, h.frames, h.built⟩

theorem monitorInv_start (clock eventSize : Int) (file : Option Bytes) :
    MonitorInv (Monitor.start clock eventSize file) where
  words := by
    intro i hi
    cases hi
  frames := by rintro _ ⟨⟩
  built := rfl

end

/-- In every run, whatever becomes of the list: a frame that was built from the whole array has a
bit set exactly if a poll since the array was allocated has found the entry at its place in
PROGRAM_LIST, and it is set in the word of the block that was polled. -/
theorem frame_bits {s : Monitor} {clock eventSize : Int} {file : Option Bytes}
    {acts : List MonitorEvent}
    (h : run monitorStep acts (Monitor.start clock eventSize file) = some s) :
    s.frames.map Prod.fst = s.gather.built ∧
      ∀ f ∈ s.frames, f.1.edition ≠ none → ∀ i < f.1.words.length, ∀ p < 32,
        (f.1.words.getD i 0).toNat.testBit p = true ↔ ∃ poll ∈ f.2, poll.block = i ∧
          ∃ entry, poll.programList[32 * i + p]? = some entry ∧ entry ≠ [] ∧
            entry <:+: poll.processes := by
  have hinv := run_invariant (fun _ _ _ => monitorInv_step)
    (monitorInv_start clock eventSize file) h
  exact ⟨hinv.built, hinv.frames⟩

/-- `ann` runs the program `a`, which a call home has put on the list. -/
def seesA : MonitorEvent := .gather [⟨str "ann", true⟩] true [] (str "PID CMD\n 42 a\n")

/-- A call home, and a cycle with one poll. -/
def oneCycleOfA : List MonitorEvent :=
  [.callHome (str "a") true true] ++ List.replicate 9 seesA ++ [.elapse 59] ++
    List.replicate 4 seesA

theorem frame_bits_ann : ∃ s,
    run monitorStep oneCycleOfA (Monitor.start 1000000021 32 (some [])) = some s ∧
      s.frames.map (fun f => (f.1.words, f.2.length)) = [([1], 1)] ∧
      s.frames.map Prod.fst = s.gather.built := by
  have hend : (run monitorStep oneCycleOfA (Monitor.start 1000000021 32 (some []))).map
      (fun s => s.frames.map fun f => (f.1.words, f.2.length)) = some [([1], 1)] := by
    decide +kernel
  obtain ⟨s, hrun, hframes⟩ := Option.map_eq_some_iff.mp hend
  exact ⟨s, hrun, hframes, (frame_bits hrun).1⟩

/-! ### The list of the server -/

/-- The text that an event reads from the masterlist, if it reads one. -/
def Monitor.readsText (s : Monitor) : MonitorEvent → Option Bytes
  | .gather _ canRead _ _ =>
      if s.gather.pc = .setup then Client.readsText s.programs (.gather canRead) else none
  | .callHome list canWrite canRead =>
      Client.readsText s.programs (.callHome list canWrite canRead)
  | _ => none

/-- The event reads the masterlist only for the first time, and only this text. -/
def ReadsOnce (text : Bytes) (s : Monitor) (e : MonitorEvent) : Prop :=
  ∀ found ∈ s.readsText e, s.programs.programList = [] ∧ found = text

instance (text : Bytes) (s : Monitor) (e : MonitorEvent) : Decidable (ReadsOnce text s e) :=
  inferInstanceAs (Decidable (∀ found ∈ s.readsText e, _ ∧ _))

/-- PROGRAM_LIST has not been read, or has these entries; and so it was at every poll. -/
structure ListInv (entries : List Bytes) (s : Monitor) : Prop where
  list : s.programs.programList = [] ∨ s.programs.programList = entries
  polls : ∀ poll ∈ s.polls, poll.programList = [] ∨ poll.programList = entries
  frames : ∀ f ∈ s.frames, ∀ poll ∈ f.2, poll.programList = [] ∨ poll.programList = entries

section
variable {s t : Monitor} {text : Bytes}

/-- Where the list comes from. -/
theorem list_of_reading {programs programs' : ProgramState} {found : Option Bytes}
    (hlist : programs.programList = [] ∨ programs.programList = fileEntries text)
    (hreads : afterReading programs programs' found)
    (honce : ∀ x ∈ found, programs.programList = [] ∧ x = text) :
    programs'.programList = [] ∨ programs'.programList = fileEntries text := by
  cases found with
  | none => exact hreads.1.symm ▸ hlist
  | some x =>
      obtain ⟨hempty, rfl⟩ := honce x rfl
      rw [hreads.1, hempty, List.nil_append]
      exact Or.inr rfl

theorem listInv_go {e : ClientEvent} {programs : ProgramState} {polls : List BlockPoll}
    {entries : List Bytes} (h : ListInv entries s) (hgo : s.go e programs polls = some t)
    (hlist : programs.programList = [] ∨ programs.programList = entries)
    (hpolls : ∀ poll ∈ polls, poll.programList = [] ∨ poll.programList = entries) :
    ListInv entries t := by
  obtain ⟨-, hprograms, hpolls', hframes⟩ := go_eq_some hgo
  refine ⟨hprograms.symm ▸ hlist, hpolls'.symm ▸ hpolls, fun f hf => ?_⟩
  rw [hframes] at hf
  rcases List.mem_append.mp hf with hf | hf
  · exact h.frames f hf
  · obtain ⟨b, -, rfl⟩ := List.mem_map.mp hf
    exact h.polls

theorem listInv_step {e : MonitorEvent} (h : ListInv (fileEntries text) s)
    (honce : ReadsOnce text s e) (hstep : monitorStep s e = some t) :
    ListInv (fileEntries text) t := by
  cases e with
  | elapse seconds => exact listInv_go h hstep h.list h.polls
  | request outcomes outside => exact listInv_go h hstep h.list h.polls
  | gather users canRead memory output =>
      obtain ⟨programs, hread, hgo⟩ := Option.bind_eq_some_iff.mp hstep
      have hlist : programs.programList = [] ∨ programs.programList = fileEntries text := by
        unfold Monitor.readPrograms at hread
        unfold ReadsOnce Monitor.readsText at honce
        by_cases hpc : s.gather.pc = .setup
        · rw [if_pos hpc] at hread
          simp only [if_pos hpc] at honce
          have hreads : listStep s.programs (.gather canRead) = some programs := by
            rw [listStep, hread, Option.getD_some]
          exact list_of_reading h.list (listStep_reads hreads) honce
        · rw [if_neg hpc] at hread
          cases hread
          exact h.list
      refine listInv_go h hgo hlist fun poll hpoll => ?_
      split at hpoll
      · cases hpoll
      · rcases List.mem_append.mp hpoll with hpoll | hpoll
        · exact h.polls poll hpoll
        · unfold Monitor.nextPoll at hpoll
          split at hpoll
          · obtain ⟨-, hpoll⟩ := Option.ite_none_right_eq_some.mp (Option.mem_toList.mp hpoll)
            cases hpoll
            exact h.list
          · cases hpoll
  | callHome list canWrite canRead =>
      obtain ⟨programs, hread, hgo⟩ := Option.bind_eq_some_iff.mp hstep
      have hreads : listStep s.programs (.callHome list canWrite canRead) = some programs := by
        rw [listStep, hread, Option.getD_some]
      exact listInv_go h hgo (list_of_reading h.list (listStep_reads hreads) honce) h.polls
  | push message access | edit file =>
      cases hstep
      exact ⟨h.list, h.polls, h.frames⟩

theorem listInv_start {entries : List Bytes} (clock eventSize : Int) (file : Option Bytes) :
    ListInv entries (Monitor.start clock eventSize file) where
  list := Or.inl rfl
  polls := by rintro _ ⟨⟩
  frames := by rintro _ ⟨⟩

end

end Monitoring.Client
